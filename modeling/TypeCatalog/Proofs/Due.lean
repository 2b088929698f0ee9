import TypeCatalog.Proofs.Content

/-!
# What is due on a type

For each type there is a list of the diagnostics that are due on it. All but those on cycles are
read off the project: its declarations of the key, the base types they name, and the files they
stand in. The reports and the links that a catalog has of a key say the same.
-/

namespace TypeCatalog

namespace Project

/-- Whether a source file declares a key or a reference exports it. -/
def declares (p : Project) (k : TypeKey) : Bool :=
  p.files.toList.any (·.declarations.any (·.key = k)) ||
    p.references.toList.any (·.exports.any (·.key = k))

/-- The merged declarations of a key, the first one in front; exports are not merged. -/
def kept (p : Project) (k : TypeKey) : List Part :=
  match p.partsOf k with
  | first :: rest => merged p.options first (first :: rest)
  | [] => []

/-- The base types that are named for a key, by its merged declarations or else by its export. -/
def named (p : Project) (k : TypeKey) : List TypeKey :=
  match p.partsOf k with
  | _ :: _ => ((p.kept k).flatMap (·.declaration.bases)).eraseDups
  | [] => (((p.exporter? k).bind (·.find? k)).elim [] Declaration.bases).eraseDups

/-- The file of the first merged declaration that names a base type, or of the first of all where
the base type is implied. An export has no file. -/
def linkFile (p : Project) (k base : TypeKey) : Option String :=
  (((p.kept k).find? (base ∈ ·.declaration.bases)).or (p.kept k).head?).map Part.file

/-- The later declarations of a key that are not meant to be merged with the first. -/
def dueDuplicates (p : Project) (k : TypeKey) : List Diagnostic :=
  match p.partsOf k with
  | first :: rest =>
    (rest.filter fun part => !(first.declaration.isPartial && part.declaration.isPartial)).map
      fun part => .duplicateDeclaration (some part.file) k (some first.file)
  | [] => []

/-- The merged declarations of another kind than the first. -/
def dueConflicts (p : Project) (k : TypeKey) : List Diagnostic :=
  match p.kept k with
  | first :: rest =>
    (rest.filter (·.declaration.kind ≠ first.declaration.kind)).map fun part =>
      .conflictingKinds (some part.file) k first.declaration.kind.label part.declaration.kind.label
  | [] => []

/-- The named base types that nothing declares. -/
def dueMissing (p : Project) (k : TypeKey) : List Diagnostic :=
  ((p.named k).filter (!p.declares ·)).map fun base => .unresolvedBase (p.linkFile k base) k base

/-- The base types that are bound to cycle placeholders. -/
def dueCycles (p : Project) (s : Store) (t : ResolvedType) : List Diagnostic :=
  ((s.directBases t).filter (·.origin = .unknown .cycle)).map fun base =>
    .circularBase (p.linkFile t.key base.key) t.key base.key

/-- All that is due on a type of a store. -/
def due (p : Project) (s : Store) (t : ResolvedType) : List Diagnostic :=
  p.dueDuplicates t.key ++ p.dueConflicts t.key ++ p.dueMissing t.key ++ p.dueCycles s t

end Project

/-- The parts of a list of files are its declarations, in their order. -/
theorem Part.map_declaration_ofFiles (files : List SourceFile) :
    (ofFiles files).map Part.declaration = files.flatMap SourceFile.declarations := by
  have hfile : ∀ (file : SourceFile) (n : Nat),
      (ofFile file n).map Part.declaration = file.declarations := by
    intro file n
    simp [ofFile, List.mapIdx_eq_zipIdx_map, Function.comp_def]
  have hfst : files.zipIdx.map (fun x => x.1.declarations) = files.map SourceFile.declarations := by
    rw [← List.zipIdx_map_fst 0 files, List.map_map]
    simp [Function.comp_def]
  simp [ofFiles, List.map_flatten, List.mapIdx_eq_zipIdx_map, Function.comp_def, hfile, hfst,
    List.flatMap]

theorem Part.map_key_ofFiles (files : List SourceFile) :
    (ofFiles files).map key = files.flatMap fun file => file.declarations.map Declaration.key := by
  rw [← List.map_flatMap, ← map_declaration_ofFiles, List.map_map]
  rfl

namespace Catalog

theorem mem_visibleKeys_ofProject {p : Project} {k : TypeKey} :
    k ∈ (ofProject p).visibleKeys ↔ p.declares k = true := by
  simp [visibleKeys, ofProject, DeclIndex.keys, DeclIndex.ofFiles, Part.map_key_ofFiles,
    Project.declares]

theorem outline?_ofProject_eq_none_iff {p : Project} {k : TypeKey} :
    (ofProject p).outline? k = none ↔ p.declares k = false := by
  rw [outline?_eq_none_iff, mem_visibleKeys_ofProject, Bool.not_eq_true]

end Catalog

namespace Outline

variable (options : Options) (k : TypeKey) (kind : TypeKind) (file : Option String)
  (bases : List (Option String × TypeKey))

theorem explicit_of_mem_explicitLinks {link : BaseLink} (h : link ∈ explicitLinks bases) :
    link.explicit = true := by
  obtain ⟨p, -, rfl⟩ := List.mem_map.1 ((firstBy_sublist _ _).mem h)
  rfl

theorem explicitLinks_eq_nil_iff : explicitLinks bases = [] ↔ bases = [] := by
  rw [← List.map_eq_nil_iff (f := BaseLink.key), map_explicitLinks]
  cases bases with
  | nil => simp
  | cons base bases => simp [List.eraseDups_cons]

theorem withRoot_of_ne_nil {links : List BaseLink} (h : links ≠ []) :
    withRoot options k kind file links = links := by
  cases links with
  | nil => exact absurd rfl h
  | cons link links => rfl

/-- The only link without a declared base is an implied root. -/
theorem mem_withRoot_nil {link : BaseLink} (h : link ∈ withRoot options k kind file []) :
    link.file = file ∧ link.explicit = false := by
  rw [withRoot] at h
  split at h
  · obtain ⟨root, -, rfl⟩ := List.mem_map.1 h
    exact ⟨rfl, rfl⟩
  · cases h

/-- The explicit links lead to the named bases; an implied root is no explicit link. -/
theorem map_filter_explicit :
    ((withRoot options k kind file (explicitLinks bases)).filter BaseLink.explicit).map
      BaseLink.key = (bases.map Prod.snd).eraseDups := by
  by_cases hb : bases = []
  · have hnone : (withRoot options k kind file []).filter BaseLink.explicit = [] :=
      List.filter_eq_nil_iff.2 fun link hl => by simp [(mem_withRoot_nil options k kind file hl).2]
    subst hb
    rw [(explicitLinks_eq_nil_iff []).2 rfl, hnone]
    rfl
  · rw [withRoot_of_ne_nil _ _ _ _ (mt (explicitLinks_eq_nil_iff bases).1 hb),
      List.filter_eq_self.2 fun _ => explicit_of_mem_explicitLinks bases, map_explicitLinks]

/-- A link has the file of the first declared base with its key; an implied root has that of the
type. -/
theorem file_of_mem_withRoot {link : BaseLink}
    (h : link ∈ withRoot options k kind file (explicitLinks bases)) :
    link.file = ((bases.find? (·.2 = link.key)).map Prod.fst).getD file := by
  by_cases hb : bases = []
  · subst hb
    rw [(explicitLinks_eq_nil_iff []).2 rfl] at h
    exact (mem_withRoot_nil options k kind file h).1
  · rw [withRoot_of_ne_nil _ _ _ _ (mt (explicitLinks_eq_nil_iff bases).1 hb)] at h
    have hfirst := find?_of_mem_firstBy h
    rw [List.find?_map] at hfirst
    obtain ⟨p, hp, rfl⟩ := Option.map_eq_some_iff.1 hfirst
    have hp : bases.find? (·.2 = p.2) = some p := hp
    rw [hp]
    rfl

end Outline

namespace Project

variable (p : Project) (k : TypeKey)

theorem kept_eq {p : Project} {k : TypeKey} {first : Part} {rest : List Part}
    (h : p.partsOf k = first :: rest) : p.kept k = Outline.keptParts p.options first rest := by
  rw [kept, h, Outline.keptParts_eq]

theorem kept_eq_nil {p : Project} {k : TypeKey} (h : p.partsOf k = []) : p.kept k = [] := by
  rw [kept, h]

/-- The explicit links of a key lead to its named bases. -/
theorem map_filter_explicit_links :
    (((Catalog.ofProject p).links k).filter BaseLink.explicit).map BaseLink.key = p.named k := by
  rw [Catalog.links, Catalog.outline?_eq, named, kept]
  cases p.partsOf k with
  | cons first rest =>
    simp [Outline.ofParts, Outline.map_filter_explicit, Outline.keptParts_eq, List.map_flatMap,
      Function.comp_def]
  | nil =>
    cases p.exporter? k with
    | none => rfl
    | some a =>
      cases hd : a.find? k with
      | none => simp [hd]
      | some d => simp [hd, Outline.ofExport, Outline.map_filter_explicit, Function.comp_def]

/-- The first base with a key that parts declare is that of the first part which names the key. -/
theorem find?_bases (parts : List Part) (base : TypeKey) :
    (parts.flatMap fun part => part.declaration.bases.map (some part.file, ·)).find?
      (·.2 = base) = (parts.find? (base ∈ ·.declaration.bases)).map
        fun part => (some part.file, base) := by
  induction parts with
  | nil => rfl
  | cons part parts ih =>
    have hkey : (fun x : Option String × TypeKey => decide (x.2 = base)) ∘ (some part.file, ·) =
        (decide <| · = base) := rfl
    rw [List.flatMap_cons, List.find?_append, ih, List.find?_map, hkey]
    by_cases hb : base ∈ part.declaration.bases
    · obtain ⟨found, hfound⟩ := Option.isSome_iff_exists.1
        (List.find?_isSome (p := (decide <| · = base)).2 ⟨base, hb, decide_eq_true rfl⟩)
      obtain rfl : found = base := by simpa using List.find?_some hfound
      simp [hfound, hb]
    · have hnone : part.declaration.bases.find? (· = base) = none :=
        List.find?_eq_none.2 fun b hmem he => hb (of_decide_eq_true he ▸ hmem)
      simp [hnone, hb]

theorem file_of_mem_links {link : BaseLink} (h : link ∈ (Catalog.ofProject p).links k) :
    link.file = p.linkFile k link.key := by
  rw [Catalog.links, Catalog.outline?_eq] at h
  rw [linkFile]
  cases hp : p.partsOf k with
  | cons first rest =>
    rw [hp] at h
    have hfile := Outline.file_of_mem_withRoot _ _ _ _ _ h
    have hhead : (Outline.keptParts p.options first rest).head? = some first := rfl
    rw [find?_bases] at hfile
    rw [hfile, kept_eq hp, hhead]
    cases (Outline.keptParts p.options first rest).find? (link.key ∈ ·.declaration.bases) <;> rfl
  | nil =>
    rw [hp] at h
    rw [kept_eq_nil hp]
    cases ha : p.exporter? k with
    | none => simp [ha] at h
    | some a =>
      cases hd : a.find? k with
      | none => simp [ha, hd] at h
      | some d =>
        simp only [ha, hd, Option.bind_some, Option.map_some, Option.getD_some] at h
        have hfile := Outline.file_of_mem_withRoot _ _ _ _ _ h
        rw [List.find?_map] at hfile
        rw [hfile]
        cases d.bases.find? _ <;> rfl

/-- What is reported on the declarations of a key is due on it. -/
theorem map_diagnostic_reports : ((Catalog.ofProject p).reports k).map Report.diagnostic =
    p.dueDuplicates k ++ p.dueConflicts k := by
  rw [Catalog.reports, Catalog.outline?_eq, dueDuplicates, dueConflicts]
  cases hp : p.partsOf k with
  | cons first rest =>
    rw [kept_eq hp]
    simp [Outline.ofParts, Outline.duplicates, Outline.kindConflicts, Outline.keptParts,
      Outline.agree, Function.comp_def, Report.diagnostic]
  | nil =>
    rw [kept_eq_nil hp]
    cases (p.exporter? k).bind fun a => (a.find? k).map (a, ·) <;> rfl

variable {p k} {d : Diagnostic}

theorem of_mem_dueDuplicates (h : d ∈ p.dueDuplicates k) :
    d.code = some "W0103" ∧ d.subject = k := by
  rw [dueDuplicates] at h
  split at h
  · obtain ⟨part, -, rfl⟩ := List.mem_map.1 h
    exact ⟨rfl, rfl⟩
  · cases h

theorem of_mem_dueConflicts (h : d ∈ p.dueConflicts k) :
    d.code = some "W0104" ∧ d.subject = k := by
  rw [dueConflicts] at h
  split at h
  · obtain ⟨part, -, rfl⟩ := List.mem_map.1 h
    exact ⟨rfl, rfl⟩
  · cases h

theorem of_mem_dueMissing (h : d ∈ p.dueMissing k) : d.code = some "W0101" ∧ d.subject = k := by
  obtain ⟨base, -, rfl⟩ := List.mem_map.1 h
  exact ⟨rfl, rfl⟩

theorem of_mem_dueCycles {s : Store} {t : ResolvedType} (h : d ∈ p.dueCycles s t) :
    d.code = some "W0102" ∧ d.subject = t.key := by
  obtain ⟨base, -, rfl⟩ := List.mem_map.1 h
  exact ⟨rfl, rfl⟩

variable (p k)

/-- What is due on a link that may lead to a missing type. -/
def missingOn (link : BaseLink) : List Diagnostic :=
  if link.explicit && !p.declares link.key then [.unresolvedBase link.file k link.key] else []

/-- What is due on a base type that may be a cycle placeholder. -/
def cycleOn (s : Store) (id : TypeId) : List Diagnostic :=
  ((s.get? id).toList.filter (·.origin = .unknown .cycle)).map fun base =>
    .circularBase (p.linkFile k base.key) k base.key

theorem dueMissing_eq :
    p.dueMissing k = ((Catalog.ofProject p).links k).flatMap (p.missingOn k) := by
  have hlinks : ∀ links : List BaseLink, (∀ link ∈ links, link.file = p.linkFile k link.key) →
      (((links.filter BaseLink.explicit).map BaseLink.key).filter (!p.declares ·)).map
        (fun base => Diagnostic.unresolvedBase (p.linkFile k base) k base) =
          links.flatMap (p.missingOn k) := by
    intro links hfile
    induction links with
    | nil => rfl
    | cons link links ih =>
      have hrest := ih fun l hl => hfile l (List.mem_cons_of_mem _ hl)
      rw [List.flatMap_cons, ← hrest, missingOn, hfile link List.mem_cons_self]
      cases he : link.explicit <;> cases hd : p.declares link.key <;> simp [he, hd]
  rw [dueMissing, ← map_filter_explicit_links, hlinks _ fun _ => p.file_of_mem_links k]

theorem dueCycles_eq (s : Store) (t : ResolvedType) :
    p.dueCycles s t = t.bases.flatMap (p.cycleOn t.key s) := by
  rw [dueCycles, Store.directBases, List.filterMap_eq_flatMap_toList, List.filter_flatMap,
    List.map_flatMap]
  rfl

end Project
end TypeCatalog
