import Mathlib.Data.List.Induction
import TypeCatalog.Proofs.Due
import TypeCatalog.Proofs.Pruning

/-!
# Groups of declarations

An index groups the declarations of a list of files by their keys. The group of a key is the
ascending list of the places of its declarations, no place is lost and none is in two groups, and
the keys come in the order in which their groups begin. One pass over the declarations, which puts
each of them behind the others of its key and notes a key when its group begins, makes the same
groups and notes the same keys.
-/

namespace TypeCatalog

/-- A table has as many entries as there are keys in it. -/
theorem size_eq_length_of_mem_iff {β : Type} {table : Std.TreeMap TypeKey β} {keys : List TypeKey}
    (hnodup : keys.Nodup) (h : ∀ k, k ∈ table ↔ k ∈ keys) : table.size = keys.length := by
  have hperm : table.keys.Perm keys :=
    (List.perm_ext_iff_of_nodup Std.TreeMap.nodup_keys hnodup).2 fun k => by
      rw [Std.TreeMap.mem_keys, h]
  rw [← Std.TreeMap.length_keys, hperm.length_eq]

theorem DeclId.ne_of_lt {a b : DeclId} (h : compare a b = .lt) : a ≠ b := by
  rintro rfl
  have heq : compare a a = .eq := Std.ReflCmp.compare_self
  rw [heq] at h
  cases h

namespace Part

/-- The declaration that stands at a place. -/
def read? (files : List SourceFile) (id : DeclId) : Option Part := do
  let file ← files[id.file]?
  let d ← file.declarations[id.index]?
  return ⟨id, file.identity, d⟩

variable {files : List SourceFile} {id : DeclId} {part : Part}

theorem read?_eq_some_iff : read? files id = some part ↔ ∃ file, files[id.file]? = some file ∧
    ∃ d, file.declarations[id.index]? = some d ∧ ⟨id, file.identity, d⟩ = part := by
  simp [read?, Option.bind_eq_some_iff]

theorem id_of_read? (h : read? files id = some part) : part.id = id := by
  obtain ⟨_, -, _, -, rfl⟩ := read?_eq_some_iff.1 h
  rfl

theorem mem_ofFiles_iff : part ∈ ofFiles files ↔ read? files part.id = some part := by
  rw [read?_eq_some_iff]
  constructor
  · intro h
    obtain ⟨l, hl, hpart⟩ := List.mem_flatten.1 h
    obtain ⟨n, hn, rfl⟩ := List.mem_mapIdx.1 hl
    obtain ⟨i, hi, rfl⟩ := List.mem_mapIdx.1 hpart
    exact ⟨_, List.getElem?_eq_getElem hn, _, List.getElem?_eq_getElem hi, rfl⟩
  · rintro ⟨file, hfile, d, hd, hpart⟩
    obtain ⟨hn, rfl⟩ := List.getElem?_eq_some_iff.1 hfile
    obtain ⟨hi, rfl⟩ := List.getElem?_eq_some_iff.1 hd
    refine List.mem_flatten.2 ⟨_, List.mem_mapIdx.2 ⟨part.id.file, hn, rfl⟩, ?_⟩
    exact List.mem_mapIdx.2 ⟨part.id.index, hi, hpart⟩

end Part

namespace DeclIndex

theorem mem_places_ofFiles_iff {files : List SourceFile} {k : TypeKey} {id : DeclId} :
    id ∈ (ofFiles files).places k ↔ ∃ part, Part.read? files id = some part ∧ part.key = k := by
  rw [places, declarations_eq, List.mem_map]
  constructor
  · rintro ⟨part, hpart, rfl⟩
    obtain ⟨hmem, hkey⟩ := List.mem_filter.1 hpart
    exact ⟨part, Part.mem_ofFiles_iff.1 hmem, of_decide_eq_true hkey⟩
  · rintro ⟨part, hread, hkey⟩
    obtain rfl := Part.id_of_read? hread
    exact ⟨part, List.mem_filter.2 ⟨Part.mem_ofFiles_iff.2 hread, decide_eq_true hkey⟩, rfl⟩

/-- The declarations of a key are what stands at its places. -/
theorem map_read?_places_ofFiles (files : List SourceFile) (k : TypeKey) :
    ((ofFiles files).places k).map (Part.read? files) =
      ((ofFiles files).declarations k).map some := by
  rw [places, declarations_eq, List.map_map]
  exact List.map_congr_left fun part hpart => Part.mem_ofFiles_iff.1 (List.mem_of_mem_filter hpart)

theorem pairwise_places_ofFiles (files : List SourceFile) (k : TypeKey) :
    ((ofFiles files).places k).Pairwise (compare · · = .lt) := by
  rw [places, declarations_eq, List.pairwise_map]
  exact (Part.pairwise_ofFiles files).filter _

theorem mem_keys_iff_places (x : DeclIndex) (k : TypeKey) : k ∈ x.keys ↔ x.places k ≠ [] := by
  rw [mem_keys_iff, places, ne_eq, ne_eq, List.map_eq_nil_iff]

/-- The keys are those of the declarations that begin a group. -/
theorem keys_eq_map_firstBy (x : DeclIndex) : x.keys = (firstBy Part.key x.parts).map Part.key := by
  rw [keys, distinct_eq_eraseDups, map_firstBy]

theorem head?_places_of_mem_firstBy {x : DeclIndex} {part : Part}
    (h : part ∈ firstBy Part.key x.parts) : (x.places part.key).head? = some part.id := by
  rw [places, declarations_eq, List.head?_map, List.head?_filter, find?_of_mem_firstBy h]
  rfl

/-- The groups begin in the order of their keys. -/
theorem exists_firsts_ofFiles (files : List SourceFile) :
    ∃ firsts : List DeclId, (ofFiles files).keys.map (fun k => ((ofFiles files).places k).head?) =
      firsts.map some ∧ firsts.Pairwise (compare · · = .lt) := by
  refine ⟨(firstBy Part.key (Part.ofFiles files)).map Part.id, ?_, ?_⟩
  · rw [keys_eq_map_firstBy, List.map_map, List.map_map]
    exact List.map_congr_left fun part hpart => head?_places_of_mem_firstBy hpart
  · rw [List.pairwise_map]
    exact (Part.pairwise_ofFiles files).sublist (firstBy_sublist _ _)

theorem mem_flatMap_places_iff {files : List SourceFile} {id : DeclId} :
    id ∈ (ofFiles files).keys.flatMap (ofFiles files).places ↔
      (Part.read? files id).isSome := by
  rw [List.mem_flatMap, Option.isSome_iff_exists]
  constructor
  · rintro ⟨k, -, hid⟩
    obtain ⟨part, hread, -⟩ := mem_places_ofFiles_iff.1 hid
    exact ⟨part, hread⟩
  · rintro ⟨part, hread⟩
    have hid : id ∈ (ofFiles files).places part.key := mem_places_ofFiles_iff.2 ⟨part, hread, rfl⟩
    exact ⟨part.key, (mem_keys_iff_places _ _).2 (List.ne_nil_of_mem hid), hid⟩

theorem nodup_keys (x : DeclIndex) : x.keys.Nodup :=
  nodup_distinct _

theorem nodup_flatMap_places (files : List SourceFile) :
    ((ofFiles files).keys.flatMap (ofFiles files).places).Nodup := by
  rw [List.nodup_flatMap]
  refine ⟨fun k _ => ?_, (nodup_keys _).imp fun hne id hj hk => ?_⟩
  · exact (pairwise_places_ofFiles files k).imp DeclId.ne_of_lt
  · -- a place has one declaration, and that has one key
    obtain ⟨part, hread, rfl⟩ := mem_places_ofFiles_iff.1 hj
    obtain ⟨part', hread', rfl⟩ := mem_places_ofFiles_iff.1 hk
    obtain rfl : part = part' := Option.some.inj (hread.symm.trans hread')
    exact hne rfl

theorem isEmpty_iff (x : DeclIndex) : x.isEmpty = true ↔ x.keys = [] :=
  List.isEmpty_iff

/-- An index is empty exactly if no file declares anything. -/
theorem isEmpty_ofFiles_iff (files : List SourceFile) :
    (ofFiles files).isEmpty = true ↔ ∀ file ∈ files, file.declarations = [] := by
  have hkeys : (ofFiles files).keys = [] ↔ (Part.ofFiles files).map Part.declaration = [] := by
    simp [List.eq_nil_iff_forall_not_mem, keys, ofFiles]
  rw [isEmpty_iff, hkeys, Part.map_declaration_ofFiles, List.flatMap_eq_nil_iff]

theorem mem_foldr_prepend {parts : List Part} {k : TypeKey} :
    k ∈ parts.foldr prepend ∅ ↔ k ∈ parts.map Part.key := by
  induction parts with
  | nil => simp
  | cons part parts ih =>
    rw [List.foldr_cons, prepend, Std.TreeMap.mem_insert, Std.LawfulEqOrd.compare_eq_iff_eq, ih,
      List.map_cons, List.mem_cons, eq_comm]

theorem mem_groups_ofParts {parts : List Part} {k : TypeKey} :
    k ∈ (ofParts parts).groups ↔ k ∈ (ofParts parts).keys := by
  rw [keys, mem_distinct]
  exact mem_foldr_prepend

section Concat

variable (parts : List Part) (part : Part)

theorem places_ofParts_concat (k : TypeKey) : (ofParts (parts ++ [part])).places k =
    (ofParts parts).places k ++ if part.key = k then [part.id] else [] := by
  rw [places, places, declarations_eq, declarations_eq, parts_ofParts, parts_ofParts,
    List.filter_append, List.map_append]
  by_cases hk : part.key = k <;> simp [hk]

theorem keys_ofParts_concat : (ofParts (parts ++ [part])).keys =
    if part.key ∈ (ofParts parts).keys then (ofParts parts).keys
    else (ofParts parts).keys ++ [part.key] := by
  simp only [keys, parts_ofParts, mem_distinct, List.map_append, List.map_cons, List.map_nil,
    distinct_concat]

end Concat
end DeclIndex

/-- Groups of places and the order of their keys, as one pass over the declarations fills them. -/
structure Grouping where
  groups : Std.TreeMap TypeKey (List DeclId) := ∅
  keys : List TypeKey := []

namespace Grouping

/-- A place goes behind the others of its key; the first place of a key begins a group. -/
def add (g : Grouping) (part : Part) : Grouping :=
  match g.groups[part.key]? with
  | some places => { g with groups := g.groups.insert part.key (places ++ [part.id]) }
  | none => ⟨g.groups.insert part.key [part.id], g.keys ++ [part.key]⟩

def ofFiles (files : List SourceFile) : Grouping :=
  (Part.ofFiles files).foldl add {}

variable {g : Grouping} {part : Part}

theorem add_of_some {places : List DeclId} (h : g.groups[part.key]? = some places) :
    g.add part = ⟨g.groups.insert part.key (places ++ [part.id]), g.keys⟩ := by
  rw [add, h]

theorem add_of_none (h : g.groups[part.key]? = none) :
    g.add part = ⟨g.groups.insert part.key [part.id], g.keys ++ [part.key]⟩ := by
  rw [add, h]

/-- The grouping has the groups and the keys of an index. -/
structure Agrees (g : Grouping) (x : DeclIndex) : Prop where
  getElem?_groups : ∀ k, g.groups[k]? = if k ∈ x.keys then some (x.places k) else none
  keys : g.keys = x.keys

theorem agrees_empty : Agrees {} (.ofParts []) :=
  ⟨fun _ => rfl, rfl⟩

/-- One more declaration does to the groups what it does to the index. -/
theorem Agrees.add {parts : List Part} (h : g.Agrees (.ofParts parts)) (part : Part) :
    (g.add part).Agrees (.ofParts (parts ++ [part])) := by
  have hgroup := h.getElem?_groups part.key
  have hplaces := DeclIndex.places_ofParts_concat parts part
  have hkeys := DeclIndex.keys_ofParts_concat parts part
  by_cases hpart : part.key ∈ (DeclIndex.ofParts parts).keys
  · rw [if_pos hpart] at hgroup hkeys
    rw [add_of_some hgroup]
    refine ⟨fun k => ?_, h.keys.trans hkeys.symm⟩
    rw [Std.TreeMap.getElem?_insert, h.getElem?_groups, hkeys, hplaces]
    by_cases hk : part.key = k
    · subst hk
      simp [hpart]
    · simp [hk]
  · rw [if_neg hpart] at hgroup hkeys
    rw [add_of_none hgroup]
    refine ⟨fun k => ?_, by rw [hkeys, h.keys]⟩
    rw [Std.TreeMap.getElem?_insert, h.getElem?_groups, hkeys, hplaces]
    by_cases hk : part.key = k
    · subst hk
      have hnil : (DeclIndex.ofParts parts).places part.key = [] := by
        simpa [DeclIndex.mem_keys_iff_places] using hpart
      simp [hnil]
    · simp [hk, Ne.symm hk]

theorem agrees_ofFiles (files : List SourceFile) : (ofFiles files).Agrees (.ofFiles files) := by
  have hrun : ∀ parts : List Part, (parts.foldl add {}).Agrees (.ofParts parts) := by
    intro parts
    induction parts using List.reverseRecOn with
    | nil => exact agrees_empty
    | append_singleton parts part ih =>
      rw [List.foldl_concat]
      exact ih.add part
  exact hrun (Part.ofFiles files)

end Grouping

/-- An index groups the declarations of its files. Under each key it has the ascending list of the
places of all declarations of that key; the groups have every place once; the keys are those that
have a place, each once, in the order in which their groups begin; and there are as many keys as
groups, none exactly if no file declares anything. One pass over the declarations makes the same
groups and notes the same keys. -/
theorem index_groups_declarations (files : List SourceFile) :
    let x := DeclIndex.ofFiles files
    (∀ k, (x.places k).Pairwise (compare · · = .lt) ∧
      (∀ id, id ∈ x.places k ↔ ∃ part, Part.read? files id = some part ∧ part.key = k) ∧
      (x.places k).map (Part.read? files) = (x.declarations k).map some) ∧
    (x.keys.flatMap x.places).Nodup ∧
    (∀ id, id ∈ x.keys.flatMap x.places ↔ (Part.read? files id).isSome) ∧
    x.keys.Nodup ∧
    (∀ k, k ∈ x.keys ↔ x.places k ≠ []) ∧
    (∃ firsts : List DeclId, x.keys.map (fun k => (x.places k).head?) = firsts.map some ∧
      firsts.Pairwise (compare · · = .lt)) ∧
    (x.size = x.keys.length ∧ x.size = x.groups.size ∧ (x.isEmpty = true ↔ x.keys = []) ∧
      (x.isEmpty = true ↔ ∀ file ∈ files, file.declarations = [])) ∧
    (Grouping.ofFiles files).Agrees x := by
  intro x
  have hsize : x.groups.size = x.keys.length :=
    size_eq_length_of_mem_iff x.nodup_keys fun _ => DeclIndex.mem_groups_ofParts
  refine ⟨fun k => ⟨?_, fun id => ?_, ?_⟩, DeclIndex.nodup_flatMap_places files,
    fun id => DeclIndex.mem_flatMap_places_iff, x.nodup_keys, x.mem_keys_iff_places,
    DeclIndex.exists_firsts_ofFiles files, ⟨rfl, hsize.symm, x.isEmpty_iff, ?_⟩,
    Grouping.agrees_ofFiles files⟩
  · exact DeclIndex.pairwise_places_ofFiles files k
  · exact DeclIndex.mem_places_ofFiles_iff
  · exact DeclIndex.map_read?_places_ofFiles files k
  · exact DeclIndex.isEmpty_ofFiles_iff files

/-- A file that declares a key twice, a file without declarations, and one more file with the
identity of the first. -/
def SourceFile.repeated : List SourceFile :=
  [("a.cs", ["T", "U", "T"]), ("b.cs", []), ("a.cs", ["U", "V"])].map fun (identity, names) =>
    ⟨identity, names.map fun name => ⟨"", name, .classType, [], [], [], false⟩⟩

/-- A group may have two places in one file and places in files of one identity. -/
theorem index_groups_declarations_repeated :
    let x := DeclIndex.ofFiles SourceFile.repeated
    x.keys = [⟨"", "T", 0⟩, ⟨"", "U", 0⟩, ⟨"", "V", 0⟩] ∧
    x.places ⟨"", "T", 0⟩ = [⟨0, 0⟩, ⟨0, 2⟩] ∧
    x.places ⟨"", "U", 0⟩ = [⟨0, 1⟩, ⟨2, 0⟩] ∧
    ⟨2, 1⟩ ∈ x.keys.flatMap x.places ∧ ⟨1, 0⟩ ∉ x.keys.flatMap x.places ∧
    x.size = 3 ∧ ¬ x.isEmpty = true := by
  intro x
  obtain ⟨-, -, hplaces, -, -, -, ⟨hsize, -, -, hempty⟩, -⟩ :=
    index_groups_declarations SourceFile.repeated
  have hkeys : x.keys = [⟨"", "T", 0⟩, ⟨"", "U", 0⟩, ⟨"", "V", 0⟩] := by decide +kernel
  refine ⟨hkeys, by decide +kernel, by decide +kernel, (hplaces ⟨2, 1⟩).2 (by decide), ?_, ?_, ?_⟩
  · exact mt (hplaces ⟨1, 0⟩).1 (by decide)
  · rw [hsize, hkeys]
    rfl
  · exact mt hempty.1 (by decide)

end TypeCatalog
