import TypeCatalog.Proofs.Content
import TypeCatalog.Proofs.Relocation

/-!
# Projects without the declarations that strict mode leaves out

Strict mode leaves out some of the declarations of a key. The pruned project has all others, in the
same files and in the same order, and has strict mode off. It declares the same keys in the same
order, and the outline of a key is that of the project, but for the places of the parts and for the
reports on the declarations that are left out.
-/

namespace TypeCatalog

/-- A report on a declaration that is not meant to be merged. -/
def Report.isDuplicate (r : Report) : Bool :=
  match r.condition with
  | .duplicateDeclaration _ => true
  | _ => false

def Outline.muted (o : Outline) : Outline :=
  { o with reports := o.reports.filter (!·.isDuplicate) }

namespace Project

/-- If the first declaration of a key is partial, strict mode leaves out those that are not.
Otherwise it leaves out all but the first. -/
def excludes (p : Project) (part : Part) : Bool :=
  match p.partsOf part.key with
  | first :: _ =>
    if first.declaration.isPartial then !part.declaration.isPartial else part.id ≠ first.id
  | [] => false

/-- The declarations of the file at place `n` that are not left out. -/
def remaining (p : Project) (file : SourceFile) (n : Nat) : List Part :=
  (Part.ofFile file n).filter (!p.excludes ·)

def pruned (p : Project) : Project :=
  { p with
    files :=
      { toList := p.files.toList.mapIdx fun n file =>
          { file with declarations := (p.remaining file n).map Part.declaration }
        distinct := by
          have hsame : (p.files.toList.mapIdx fun n file => { file with
              declarations := (p.remaining file n).map Part.declaration }).map identity =
                p.files.toList.map identity := List.ext_getElem (by simp) (by simp [identity])
          rw [hsame]
          exact p.files.distinct }
    options := { p.options with strictPartial := false } }

/-- The place that a declaration of the pruned project has in the project: it is in the same file,
among those that were left out there. -/
def original (p : Project) (d : DeclId) : DeclId where
  file := d.file
  index := (p.files.toList[d.file]?.bind fun file => (p.remaining file d.file)[d.index]?).elim
    d.index (·.id.index)

end Project

namespace Part

theorem of_mem_ofFile {file : SourceFile} {n : Nat} {part : Part} (h : part ∈ ofFile file n) :
    part.id.file = n ∧ part.file = file.identity := by
  obtain ⟨i, hi, rfl⟩ := List.mem_mapIdx.1 h
  exact ⟨rfl, rfl⟩

/-- The places of the declarations ascend. -/
theorem pairwise_ofFiles (files : List SourceFile) :
    (ofFiles files).Pairwise fun a b => compare a.id b.id = .lt := by
  rw [ofFiles, List.pairwise_flatten]
  constructor
  · intro l hl
    obtain ⟨n, hn, rfl⟩ := List.mem_mapIdx.1 hl
    rw [List.pairwise_iff_getElem]
    intro i j hi hj hij
    simpa [ofFile, DeclId.compare_def, Nat.compare_eq_lt] using hij
  · rw [List.pairwise_iff_getElem]
    intro m n hm hn hmn a ha b hb
    rw [List.getElem_mapIdx] at ha hb
    rw [DeclId.compare_def, (of_mem_ofFile ha).1, (of_mem_ofFile hb).1,
      Nat.compare_eq_lt.2 hmn]
    rfl

end Part

namespace Project

variable (p : Project)

/-- Each declaration of the pruned project is one of the project, at its original place. -/
theorem map_relocate_ofFile {file : SourceFile} {n : Nat} (h : p.files.toList[n]? = some file) :
    (Part.ofFile { file with declarations := (p.remaining file n).map Part.declaration } n).map
      (Part.relocate p.original) = p.remaining file n := by
  refine List.ext_getElem (by simp [Part.ofFile]) fun i hi hi' => ?_
  obtain ⟨hn, hfile⟩ := Part.of_mem_ofFile (List.mem_of_mem_filter (List.getElem_mem hi'))
  have hplace : p.original ⟨n, i⟩ = (p.remaining file n)[i].id := by
    have hindex : p.original ⟨n, i⟩ = ⟨n, (p.remaining file n)[i].id.index⟩ := by
      simp [original, h, List.getElem?_eq_getElem hi']
    rw [hindex, DeclId.mk.injEq]
    exact ⟨hn.symm, rfl⟩
  simp [Part.ofFile, Part.relocate, hplace, ← hfile]

theorem map_relocate_ofFiles_pruned :
    (Part.ofFiles p.pruned.files.toList).map (Part.relocate p.original) =
      (Part.ofFiles p.files.toList).filter (!p.excludes ·) := by
  rw [Part.ofFiles, Part.ofFiles, List.map_flatten, List.filter_flatten]
  congr 1
  refine List.ext_getElem (by simp [pruned]) fun n hn hn' => ?_
  have hlt : n < p.files.toList.length := by simpa using hn'
  simpa [pruned, remaining] using p.map_relocate_ofFile (List.getElem?_eq_getElem hlt)

theorem map_relocate_partsOf_pruned (k : TypeKey) :
    (p.pruned.partsOf k).map (Part.relocate p.original) =
      (p.partsOf k).filter (!p.excludes ·) := by
  have hkey : (fun part : Part => decide (part.key = k)) ∘ Part.relocate p.original =
      (decide <| ·.key = k) := rfl
  have hparts := congrArg (List.filter (·.key = k)) p.map_relocate_ofFiles_pruned
  rw [List.filter_map, hkey] at hparts
  rw [partsOf, hparts, partsOf, List.filter_filter, List.filter_filter]
  simp only [Bool.and_comm]

theorem key_of_mem_partsOf {k : TypeKey} {part : Part} (h : part ∈ p.partsOf k) : part.key = k := by
  simpa using (List.mem_filter.1 h).2

/-- Of the declarations of a key, the first stays, and so do those that agree with it. -/
theorem filter_excludes_partsOf {k : TypeKey} {first : Part} {rest : List Part}
    (h : p.partsOf k = first :: rest) :
    (first :: rest).filter (!p.excludes ·) = first :: rest.filter (Outline.agree first) := by
  have hexcludes : ∀ part ∈ first :: rest, p.excludes part =
      if first.declaration.isPartial then !part.declaration.isPartial
      else decide (part.id ≠ first.id) := by
    intro part hpart
    rw [excludes, p.key_of_mem_partsOf (h ▸ hpart), h]
  have hfirst : p.excludes first = false := by
    rw [hexcludes first List.mem_cons_self]
    cases first.declaration.isPartial <;> simp
  -- places ascend, so no later declaration is at the place of the first
  have hlater : ∀ part ∈ rest, part.id ≠ first.id := by
    intro part hpart he
    have hsorted : (p.partsOf k).Pairwise fun a b => compare a.id b.id = .lt :=
      (Part.pairwise_ofFiles p.files.toList).filter _
    have hlt := List.rel_of_pairwise_cons (h ▸ hsorted) hpart
    rw [he, Std.LawfulEqOrd.compare_eq_iff_eq.2 rfl] at hlt
    cases hlt
  rw [List.filter_cons_of_pos (by simp [hfirst])]
  refine congrArg _ (List.filter_congr fun part hpart => ?_)
  rw [hexcludes part (List.mem_cons_of_mem _ hpart), Outline.agree]
  cases first.declaration.isPartial <;> simp [hlater part hpart]

end Project

namespace Outline

variable (options : Options) (k : TypeKey)

/-- Whether a type gets the root of its kind does not hang on what is merged. -/
theorem withRoot_lenient (kind : TypeKind) (file : Option String) (links : List BaseLink) :
    withRoot { options with strictPartial := false } k kind file links =
      withRoot options k kind file links := by
  cases links <;> rfl

theorem isDuplicate_of_mem_duplicates {k : TypeKey} {first : Part} {rest : List Part} {r : Report}
    (h : r ∈ duplicates k first rest) : r.isDuplicate = true := by
  obtain ⟨part, -, rfl⟩ := List.mem_map.1 h
  rfl

theorem isDuplicate_of_mem_kindConflicts {k : TypeKey} {first : Part} {kept : List Part}
    {r : Report} (h : r ∈ kindConflicts k first kept) : r.isDuplicate = false := by
  obtain ⟨part, -, rfl⟩ := List.mem_map.1 h
  rfl

/-- What strict mode makes of all parts, lenient mode makes of those that agree with the first; only
the reports on the others are missing. -/
theorem muted_ofParts {options : Options} (hs : options.strictPartial = true) (first : Part)
    (rest : List Part) : (ofParts options k first rest).muted =
      ofParts { options with strictPartial := false } k first (rest.filter (agree first)) := by
  have hkept : keptParts { options with strictPartial := false } first (rest.filter (agree first)) =
      keptParts options first rest := by
    simp [keptParts, hs]
  have hnone : duplicates k first (rest.filter (agree first)) = [] := by
    simp [duplicates]
  have hreports : (duplicates k first rest ++
      kindConflicts k first (keptParts options first rest)).filter (!·.isDuplicate) =
        kindConflicts k first (keptParts options first rest) := by
    rw [List.filter_append, List.filter_eq_nil_iff.2, List.filter_eq_self.2, List.nil_append]
    · intro r hr
      rw [isDuplicate_of_mem_kindConflicts hr, Bool.not_false]
    · intro r hr
      simp [isDuplicate_of_mem_duplicates hr]
  simp only [ofParts, muted, hkept, hnone, hreports, withRoot_lenient, List.nil_append]

theorem muted_ofExport (f : DeclId → DeclId) (name : AssemblyName) (d : Declaration) :
    (ofExport options k name d).muted =
      (ofExport { options with strictPartial := false } k name d).relocate f := by
  simp only [ofExport, muted, relocate, Definition.relocate, Site.relocate, withRoot_lenient,
    List.filter_nil]

end Outline

namespace Catalog

variable {p : Project}

/-- What a project in strict mode has under a key, the pruned project has too. -/
theorem muted_outline? (hs : p.options.strictPartial = true) (k : TypeKey) :
    ((ofProject p).outline? k).map Outline.muted =
      ((ofProject p.pruned).outline? k).map (Outline.relocate p.original) := by
  have hparts := p.map_relocate_partsOf_pruned k
  rw [outline?_eq, outline?_eq]
  cases hp : p.partsOf k with
  | nil =>
    rw [hp, List.filter_nil, List.map_eq_nil_iff] at hparts
    rw [hparts]
    simp only [Option.map_map]
    exact congrArg (Option.map · _) (funext fun e => Outline.muted_ofExport _ _ _ _ _)
  | cons first rest =>
    rw [hp, p.filter_excludes_partsOf hp] at hparts
    obtain ⟨first', rest', hpruned, rfl, hrest⟩ := List.map_eq_cons_iff.1 hparts
    rw [hpruned]
    simp only [Option.map_some, Outline.muted_ofParts _ hs, ← hrest, Outline.ofParts_relocate]
    rfl

/-- The first declaration of each key is not left out, so that the keys and their order stay. -/
theorem visibleKeys_pruned : (ofProject p.pruned).visibleKeys = (ofProject p).visibleKeys := by
  have hkeys : (ofProject p.pruned).index.keys = (ofProject p).index.keys := by
    have hmap : (Part.ofFiles p.pruned.files.toList).map Part.key =
        ((Part.ofFiles p.files.toList).filter (!p.excludes ·)).map Part.key := by
      rw [← p.map_relocate_ofFiles_pruned, List.map_map]
      rfl
    have hfirst : firstBy Part.key ((Part.ofFiles p.files.toList).filter (!p.excludes ·)) =
        firstBy Part.key (Part.ofFiles p.files.toList) := by
      refine firstBy_filter fun part hpart => ?_
      have hparts : (p.partsOf part.key).head? = some part := by
        rwa [Project.partsOf, List.head?_filter]
      obtain ⟨rest, hrest⟩ := List.head?_eq_some_iff.1 hparts
      have hstay : part ∈ (part :: rest).filter (!p.excludes ·) := by
        rw [p.filter_excludes_partsOf hrest]
        exact List.mem_cons_self
      exact (List.mem_filter.1 hstay).2
    rw [DeclIndex.keys, DeclIndex.keys, distinct_eq_eraseDups, distinct_eq_eraseDups]
    exact (congrArg List.eraseDups hmap).trans
      (by rw [← map_firstBy, hfirst, map_firstBy]; rfl)
  rw [visibleKeys, visibleKeys, hkeys]
  rfl

end Catalog
end TypeCatalog
