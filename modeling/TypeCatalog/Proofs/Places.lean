import TypeCatalog.Proofs.Grouping

/-!
# Places of declarations

An index that holds the places of declarations, and an assembly that holds the places of its
exports, have to read what stands there. A reading fails where there is no such place. Here the
outline of a key is made by readings alone, in the order in which they are needed. None of them
fails, and the outline is the one that is made without any.
-/

namespace TypeCatalog

theorem mapM_eq_some_of_map_eq {α β : Type} {f : α → Option β} {l : List α} {l' : List β}
    (h : l.map f = l'.map some) : l.mapM f = some l' := by
  induction l generalizing l' with
  | nil => simp_all
  | cons a l ih =>
    cases l' with
    | nil => cases h
    | cons b l' =>
      obtain ⟨ha, hl⟩ := List.cons.inj h
      simp [List.mapM_cons, ha, ih hl]

theorem Outline.keptParts_sublist (options : Options) (first : Part) (rest : List Part) :
    (keptParts options first rest).Sublist (first :: rest) := by
  unfold keptParts
  split
  · exact List.filter_sublist.cons_cons first
  · exact List.Sublist.refl _

namespace Assembly

/-- The places of the exports, where the first export of a key counts. -/
def table (a : Assembly) : Std.TreeMap TypeKey Nat :=
  a.exports.zipIdx.foldl (fun table (d, i) => table.insertIfNew d.key i) ∅

/-- The first export with this key, read at its place. -/
def findAt? (a : Assembly) (k : TypeKey) : Option (Option Declaration) :=
  match a.table[k]? with
  | some i => a.exports[i]?.map some
  | none => some none

theorem getElem?_foldl_insertIfNew (exports : List Declaration) (n : Nat)
    (table : Std.TreeMap TypeKey Nat) (k : TypeKey) :
    ((exports.zipIdx n).foldl (fun table (d, i) => table.insertIfNew d.key i) table)[k]? =
      table[k]?.or ((exports.findIdx? (·.key = k)).map (n + ·)) := by
  induction exports generalizing n table with
  | nil => simp
  | cons d exports ih =>
    rw [List.zipIdx_cons, List.foldl_cons, ih, List.findIdx?_cons, Std.TreeMap.getElem?_insertIfNew]
    simp only [Std.LawfulEqOrd.compare_eq_iff_eq, decide_eq_true_eq]
    by_cases hk : d.key = k
    · subst hk
      cases ht : table[d.key]? with
      | none =>
        have hmem : d.key ∉ table := by simp [Std.TreeMap.mem_iff_isSome_getElem?, ht]
        simp [hmem]
      | some i =>
        have hmem : d.key ∈ table := by simp [Std.TreeMap.mem_iff_isSome_getElem?, ht]
        simp [hmem]
    · simp [hk, Function.comp_def, Nat.add_assoc, Nat.add_comm 1]

theorem getElem?_table (a : Assembly) (k : TypeKey) :
    a.table[k]? = a.exports.findIdx? (·.key = k) := by
  simp [table, getElem?_foldl_insertIfNew]

theorem lt_length_of_mem_table {a : Assembly} {k : TypeKey} {i : Nat} (h : i ∈ a.table[k]?) :
    i < a.exports.length := by
  rw [Option.mem_def, getElem?_table, List.findIdx?_eq_some_iff_getElem] at h
  exact h.1

theorem findAt?_eq (a : Assembly) (k : TypeKey) : a.findAt? k = some (a.find? k) := by
  rw [findAt?, getElem?_table, find?]
  cases hi : a.exports.findIdx? (·.key = k) with
  | none =>
    have hfind : a.exports.find? (·.key = k) = none :=
      List.find?_eq_none.2 (by simpa using List.findIdx?_eq_none_iff.1 hi)
    rw [hfind]
  | some i =>
    obtain ⟨hlt, hkey, hbefore⟩ := List.findIdx?_eq_some_iff_getElem.1 hi
    have hfind : a.exports.find? (·.key = k) = some a.exports[i] :=
      List.find?_eq_some_iff_getElem.2 ⟨hkey, i, hlt, rfl, by simpa using hbefore⟩
    simp [hfind, hlt]

end Assembly

namespace Project

variable (p : Project)

/-- The declaration at a place. -/
def partAt? (id : DeclId) : Option Part :=
  Part.read? p.files.toList id

/-- The report on a declaration that does not belong to the first one. -/
def duplicateOf (k : TypeKey) (first part : Part) : Report :=
  ⟨some part.file, k, .duplicateDeclaration (some first.file)⟩

/-- Which of the places of a key are merged, and the reports on the other declarations. -/
def selectAt? (k : TypeKey) (ids : List DeclId) : Option (List DeclId × List Report) := do
  let id ← ids[0]?
  let first ← p.partAt? id
  if p.options.strictPartial then
    if first.declaration.isPartial then
      let parts ← ids.mapM p.partAt?
      let (kept, excluded) := parts.partition (·.declaration.isPartial)
      return (kept.map Part.id, excluded.map (duplicateOf k first))
    else
      let excluded ← (← ids.tail?).mapM p.partAt?
      return ([id], excluded.map (duplicateOf k first))
  else
    let rest ← (← ids.tail?).mapM p.partAt?
    return (ids, (rest.filter (!Outline.agree first ·)).map (duplicateOf k first))

/-- What the declarations at these places say together. -/
def mergeAt? (k : TypeKey) (ids : List DeclId) : Option Outline := do
  let (selected, reports) ← p.selectAt? k ids
  let first ← p.partAt? (← selected[0]?)
  let parts ← selected.mapM p.partAt?
  return {
    definition := {
      kind := first.declaration.kind
      site := .source selected (distinct (parts.map Part.file))
      members := parts.flatMap fun part => part.declaration.members.map (⟨·, some part.file⟩) }
    links := Outline.withRoot p.options k first.declaration.kind (some first.file)
      (Outline.explicitLinks
        (parts.flatMap fun part => part.declaration.bases.map (some part.file, ·)))
    reports := reports ++ Outline.kindConflicts k first parts }

/-- The first export of a key among the references. -/
def exportAt? (k : TypeKey) : Option (Option (AssemblyName × Declaration)) :=
  p.references.toList.findSomeM? fun a => do
    let d? ← a.findAt? k
    return d?.map (a.name, ·)

/-- What is declared under a key, if anything is. -/
def outlineAt? (k : TypeKey) : Option (Option Outline) :=
  match ((Catalog.ofProject p).index.declarations k).map Part.id with
  | [] => do
    let exported? ← p.exportAt? k
    return exported?.map fun (name, d) => .ofExport p.options k name d
  | id :: ids => do
    let outline ← p.mergeAt? k (id :: ids)
    return some outline

variable {p}

theorem partAt?_of_mem {part : Part} (h : part ∈ Part.ofFiles p.files.toList) :
    p.partAt? part.id = some part :=
  Part.mem_ofFiles_iff.1 h

theorem partAt?_of_mem_partsOf {part : Part} {k : TypeKey} (h : part ∈ p.partsOf k) :
    p.partAt? part.id = some part :=
  partAt?_of_mem (List.mem_filter.1 h).1

theorem mapM_partAt? {parts : List Part} (h : ∀ part ∈ parts, p.partAt? part.id = some part) :
    (parts.map Part.id).mapM p.partAt? = some parts := by
  refine mapM_eq_some_of_map_eq ?_
  rw [List.map_map]
  exact List.map_congr_left h

section Declared

variable {first : Part} {rest : List Part}
  (h : ∀ part ∈ first :: rest, p.partAt? part.id = some part) (k : TypeKey)
include h

theorem selectAt?_eq : p.selectAt? k ((first :: rest).map Part.id) =
    some ((Outline.keptParts p.options first rest).map Part.id,
      Outline.duplicates k first rest) := by
  have hfirst := h first List.mem_cons_self
  have hrest := mapM_partAt? fun part hp => h part (List.mem_cons_of_mem _ hp)
  have hall := mapM_partAt? h
  have hhead : ((first :: rest).map Part.id)[0]? = some first.id := rfl
  have htail : ((first :: rest).map Part.id).tail? = some (rest.map Part.id) := rfl
  have hduplicates : ∀ parts, Outline.duplicates k first parts =
      (parts.filter (!Outline.agree first ·)).map (duplicateOf k first) := fun _ => rfl
  have hagree : Outline.agree first = fun part =>
      first.declaration.isPartial && part.declaration.isPartial := rfl
  rw [selectAt?, hduplicates, Outline.keptParts]
  simp only [hhead, htail, hfirst, hrest, hall, Option.bind_eq_bind, Option.bind_some,
    Option.pure_def]
  cases p.options.strictPartial with
  | false => rfl
  | true =>
    cases hpartial : first.declaration.isPartial <;>
      simp [hpartial, hagree, Function.comp_def]

theorem mergeAt?_eq :
    p.mergeAt? k ((first :: rest).map Part.id) = some (.ofParts p.options k first rest) := by
  have hkept : ∀ part ∈ Outline.keptParts p.options first rest, p.partAt? part.id = some part :=
    fun part hp => h part ((Outline.keptParts_sublist _ _ _).subset hp)
  have hparts := mapM_partAt? hkept
  have hhead : ((Outline.keptParts p.options first rest).map Part.id)[0]? = some first.id := rfl
  have hfirst := h first List.mem_cons_self
  rw [mergeAt?, selectAt?_eq h]
  simp only [hhead, hparts, hfirst, Option.bind_eq_bind, Option.bind_some, Option.pure_def]
  rfl

end Declared

/-- The places of a declared key, of which some are selected, the first always. -/
theorem exists_selectAt?_eq {k : TypeKey} (hk : p.partsOf k ≠ []) :
    ∃ id ids reports, p.selectAt? k ((p.partsOf k).map Part.id) = some (id :: ids, reports) := by
  obtain ⟨first, rest, hparts⟩ := List.exists_cons_of_ne_nil hk
  rw [hparts, selectAt?_eq fun part hp => partAt?_of_mem_partsOf (k := k) (hparts ▸ hp)]
  exact ⟨_, _, _, rfl⟩

/-- The parts of a key are some of its declarations, in their order. -/
theorem exists_sublist_partsOf (p : Project) (k : TypeKey) :
    ∃ kept : List Part, kept.Sublist (p.partsOf k) ∧ (p.content k).parts = kept.map Part.id := by
  unfold content
  cases p.partsOf k with
  | cons first rest =>
    refine ⟨_, Outline.keptParts_sublist p.options first rest, ?_⟩
    rw [Outline.keptParts_eq]
  | nil =>
    refine ⟨[], List.Sublist.refl _, ?_⟩
    cases (p.exporter? k).bind fun a => (a.find? k).map (a, ·) <;> rfl

/-- The parts of a key are places of declarations of the key. -/
theorem exists_partAt?_of_mem_parts {k : TypeKey} {id : DeclId} (h : id ∈ (p.content k).parts) :
    ∃ part, p.partAt? id = some part ∧ part.key = k := by
  obtain ⟨kept, hkept, hparts⟩ := p.exists_sublist_partsOf k
  rw [hparts] at h
  obtain ⟨part, hp, rfl⟩ := List.mem_map.1 h
  have hmem := hkept.subset hp
  exact ⟨part, partAt?_of_mem_partsOf hmem, by simpa using (List.mem_filter.1 hmem).2⟩

theorem exportAt?_eq (k : TypeKey) :
    p.exportAt? k = some ((Catalog.ofProject p).findExport? k) := by
  simp only [exportAt?, Assembly.findAt?_eq]
  exact List.findSomeM?_pure

theorem outlineAt?_eq (k : TypeKey) :
    p.outlineAt? k = some ((Catalog.ofProject p).outline? k) := by
  have hindex : (Catalog.ofProject p).index.declarations k = p.partsOf k :=
    DeclIndex.declarations_eq _ k
  rw [outlineAt?, Catalog.outline?, hindex]
  cases hparts : p.partsOf k with
  | nil =>
    rw [exportAt?_eq]
    rfl
  | cons first rest =>
    have hmerge := mergeAt?_eq (fun part hp => partAt?_of_mem_partsOf (hparts ▸ hp)) k
    rw [List.map_cons] at hmerge ⊢
    dsimp only
    rw [hmerge]
    rfl

end Project

end TypeCatalog
