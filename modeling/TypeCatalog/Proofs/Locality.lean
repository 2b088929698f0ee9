import TypeCatalog.Proofs.Independence
import TypeCatalog.Proofs.Relocation

/-!
# Updates of source files

An update of files touches the keys that are declared in the files which it takes out or puts in. Of
all other keys the project has the same declarations in the same order, though the places of their
files may shift. A key that is not touched keeps its content but for these places. If it does not
lead to a touched key or to a cycle either, it inherits from the same types in the same order.
-/

namespace TypeCatalog

def SourceFile.declares (file : SourceFile) (k : TypeKey) : Bool :=
  file.declarations.any (·.key = k)

namespace Update

def onFiles : Update → Bool
  | .addFile _ | .addFiles _ | .removeFile _ | .changeFile _ _ => true
  | _ => false

/-- The files that an update puts in. -/
def inserted : Update → List SourceFile
  | .addFile file => [file]
  | .addFiles files => files
  | .changeFile _ new => new.toList
  | _ => []

/-- The identities of the files that an update takes out, also where it puts in others for them. -/
def vacated : Update → List String
  | .addFile file => [file.identity]
  | .addFiles files => files.map identity
  | .removeFile file => [file]
  | .changeFile old new => old.toList ++ (new.map identity).toList
  | _ => []

end Update

namespace Part

def unplaced (p : Part) : Part :=
  p.relocate fun _ => ⟨0, 0⟩

theorem map_unplaced_ofFiles (files : List SourceFile) :
    (ofFiles files).map unplaced = files.flatMap fun file => (ofFile file 0).map unplaced := by
  rw [ofFiles, List.map_flatten, List.flatMap_def]
  congr 1
  refine List.ext_getElem (by simp) fun n hn hn' => ?_
  simp only [List.getElem_map, List.getElem_mapIdx]
  exact List.ext_getElem (by simp [ofFile]) fun i hi hi' => by simp [ofFile, unplaced, relocate]

end Part

namespace Content

def unplaced (content : Content) : Content :=
  { content with parts := [] }

theorem unplaced_eq_iff {a b : Content} : a.unplaced = b.unplaced ↔
    a.kind? = b.kind? ∧ a.origin = b.origin ∧ a.members = b.members ∧ a.bases = b.bases := by
  simp [unplaced]

end Content

namespace Project

/-- The key is declared in a file that an update takes out or puts in. -/
def touches (p : Project) (u : Update) (k : TypeKey) : Prop :=
  ∃ file ∈ p.files.toList.filter (identity · ∈ u.vacated) ++ u.inserted, file.declares k

instance (p : Project) (u : Update) (k : TypeKey) : Decidable (p.touches u k) :=
  List.decidableBEx _ _

variable {p p' : Project} {u : Update} {k : TypeKey}

/-- The files that declare a key which is not touched stay, and so does their order. -/
theorem filter_declares_edit (hu : u.onFiles) (hk : ¬ p.touches u k) :
    (p.edit u).files.toList.filter (·.declares k) = p.files.toList.filter (·.declares k) := by
  -- neither the files that come in nor those that give way declare the key
  have hin : ∀ file ∈ u.inserted, file.declares k = false := by
    intro file hfile
    have hnot : ¬ file.declares k := fun hd => hk ⟨file, List.mem_append_right _ hfile, hd⟩
    simpa using hnot
  have hout : ∀ file ∈ p.files.toList, identity file ∈ u.vacated → file.declares k = false := by
    intro file hfile hid
    have hmem : file ∈ p.files.toList.filter (identity · ∈ u.vacated) :=
      List.mem_filter.2 ⟨hfile, by simpa using hid⟩
    have hnot : ¬ file.declares k := fun hd => hk ⟨file, List.mem_append_left _ hmem, hd⟩
    simpa using hnot
  cases u with
  | addFile file =>
    exact Roster.filter_insert (hin file List.mem_cons_self) fun b hb hid =>
      hout b hb (List.mem_singleton.2 hid)
  | addFiles files => exact Roster.filter_insertAll hin hout
  | removeFile file =>
    exact Roster.filter_erase fun b hb hid => hout b hb (List.mem_singleton.2 hid)
  | changeFile old new =>
    exact Roster.filter_change (fun a ha => hin a (Option.mem_toList.2 ha)) fun b hb hid =>
      hout b hb (by simpa [Update.vacated] using hid)
  | _ => cases hu

/-- Without their places, the declarations of a key are those of the files that declare it. -/
theorem map_unplaced_partsOf (p : Project) (k : TypeKey) :
    (p.partsOf k).map Part.unplaced = (p.files.toList.filter (·.declares k)).flatMap fun file =>
      ((Part.ofFile file 0).map Part.unplaced).filter (·.key = k) := by
  have hkey : (fun part : Part => decide (part.key = k)) ∘ Part.unplaced =
      (decide <| ·.key = k) := rfl
  have hnone : ∀ file ∈ p.files.toList, file.declares k = false →
      ((Part.ofFile file 0).map Part.unplaced).filter (·.key = k) = [] := by
    intro file _ hd
    rw [List.filter_map, hkey, List.map_eq_nil_iff, List.filter_eq_nil_iff]
    intro part hpart hpk
    obtain ⟨i, hi, rfl⟩ := List.mem_mapIdx.1 hpart
    exact List.any_eq_false.1 hd _ (List.getElem_mem hi) hpk
  rw [flatMap_filter_of_nil hnone, ← List.filter_flatMap, ← Part.map_unplaced_ofFiles,
    List.filter_map, hkey, partsOf]

theorem map_unplaced_merged (options : Options) {first first' : Part} {rest rest' : List Part}
    (hfirst : first'.unplaced = first.unplaced)
    (hrest : rest'.map Part.unplaced = rest.map Part.unplaced) :
    (merged options first' (first' :: rest')).map Part.unplaced =
      (merged options first (first :: rest)).map Part.unplaced := by
  rw [← Outline.keptParts_eq, ← Outline.keptParts_eq]
  have hkept := Outline.keptParts_relocate (fun _ => ⟨0, 0⟩) options
  exact (hkept first' rest').symm.trans ((congrArg₂ _ hfirst hrest).trans (hkept first rest))

/-- The content of a key is made of its declarations, and only its parts tell where they are. -/
theorem unplaced_content_eq (hoptions : p'.options = p.options)
    (hreferences : p'.references = p.references)
    (hparts : (p'.partsOf k).map Part.unplaced = (p.partsOf k).map Part.unplaced) :
    (p'.content k).unplaced = (p.content k).unplaced := by
  unfold content exporter?
  rw [hoptions, hreferences]
  cases hp : p.partsOf k with
  | nil =>
    rw [hp, List.map_nil, List.map_eq_nil_iff] at hparts
    rw [hparts]
  | cons first rest =>
    rw [hp] at hparts
    obtain ⟨first', rest', hp', hfirst, hrest⟩ := List.map_eq_cons_iff.1 hparts
    have hkept := map_unplaced_merged p.options hfirst hrest
    have hsame : ∀ {β : Type} (f : Part → β), (∀ part, f part.unplaced = f part) →
        (merged p.options first' (first' :: rest')).map f =
          (merged p.options first (first :: rest)).map f := by
      intro β f hf
      have hmap := congrArg (List.map f) hkept
      simpa [Function.comp_def, hf] using hmap
    have hkind : first'.declaration.kind = first.declaration.kind :=
      congrArg (·.declaration.kind) hfirst
    have hfiles := hsame Part.file fun _ => rfl
    have hmembers := hsame (fun part => part.declaration.members.map
      (SitedMember.mk · (some part.file))) fun _ => rfl
    have hbases := hsame (·.declaration.bases) fun _ => rfl
    simp only [hp', Content.unplaced, List.flatMap_def, hkind, hfiles, hmembers, hbases]

theorem unplaced_content_edit (hu : u.onFiles) (hk : ¬ p.touches u k) :
    ((p.edit u).content k).unplaced = (p.content k).unplaced := by
  have hrest : (p.edit u).options = p.options ∧ (p.edit u).references = p.references := by
    cases u <;> first | exact ⟨rfl, rfl⟩ | cases hu
  refine unplaced_content_eq hrest.1 hrest.2 ?_
  rw [map_unplaced_partsOf, map_unplaced_partsOf, filter_declares_edit hu hk]

end Project

namespace Catalog

/-- Links lead from a key neither to a key of the set nor to a cycle. -/
structure KeepsClearOf (T : TypeKey → Prop) (c : Catalog) (k : TypeKey) : Prop where
  cycles : c.AvoidsCycles k
  keys : ∀ j, c.Reaches k j → ¬ T j

theorem keepsClearOf_of_linksTo {T : TypeKey → Prop} {c : Catalog} {k : TypeKey} (hk : ¬ T k)
    (h : ∀ base, c.LinksTo k base → c.KeepsClearOf T base) : c.KeepsClearOf T k where
  cycles := avoidsCycles_of_linksTo fun base hl => (h base hl).cycles
  keys := by
    intro j hj
    rcases Relation.ReflTransGen.cases_head hj with rfl | ⟨base, hl, hr⟩
    · exact hk
    · exact (h base hl).keys j hr

/-- Catalogs that differ in the links of a set agree on the keys that keep clear of it. -/
theorem agreeOn_keepsClearOf {T : TypeKey → Prop} {c c' : Catalog}
    (h : ∀ k, ¬ T k → (c'.links k).map BaseLink.key = (c.links k).map BaseLink.key) :
    AgreeOn (KeepsClearOf T c) c c' where
  closed hk hl := ⟨hk.cycles.of_linksTo hl, fun j hj => hk.keys j (.head hl hj)⟩
  links hk := h _ (hk.keys _ .refl)
  acyclic hk := hk.cycles _ .refl

end Catalog

/-- If two snapshots differ in what the keys of a set are, keys that keep clear of it inherit
alike. -/
theorem Compilation.lineage_eq_of_keepsClearOf {T : TypeKey → Prop} {s s' : Snapshot}
    (h : ∀ k, ¬ T k → (s'.project.content k).unplaced = (s.project.content k).unplaced)
    {k : TypeKey} (hk : (Catalog.ofProject s.project).KeepsClearOf T k) (qs qs' : List Query) :
    ((create s).after qs).lineage k = ((create s').after qs').lineage k := by
  have hlinks : ∀ k, ¬ T k → ((Catalog.ofProject s'.project).links k).map BaseLink.key =
      ((Catalog.ofProject s.project).links k).map BaseLink.key := by
    intro k hk
    rw [Catalog.map_key_links, Catalog.map_key_links]
    exact (Content.unplaced_eq_iff.1 (h k hk)).2.2.2
  refine lineage_after_eq (Catalog.agreeOn_keepsClearOf hlinks) (fun j hj => ?_) hk qs qs'
  obtain ⟨hkind, horigin, -, -⟩ := Content.unplaced_eq_iff.1 (h j (hj.keys j .refl))
  exact ⟨hkind, horigin⟩

/-- A file update is local. In whatever histories a key is looked up before and after it, a key that
it does not touch has the same kind, origin, members and base types. If links lead from the key to
nothing that is touched and to no cycle, the key inherits from the same types in the same order;
whether these are the links before or after the update makes no difference. -/
theorem file_update_is_local (s : Snapshot) (u : Update) (hu : u.onFiles) (qs qs' : List Query) :
    let c := (Compilation.create s).after qs
    let c' := (Compilation.create (s.update u)).after qs'
    (∀ k, ¬ s.project.touches u k → (c'.describe k).unplaced = (c.describe k).unplaced) ∧
    ∀ k, (Catalog.ofProject s.project).KeepsClearOf (s.project.touches u) k ∨
        (Catalog.ofProject (s.update u).project).KeepsClearOf (s.project.touches u) k →
      c'.lineage k = c.lineage k := by
  intro c c'
  have hcontent : ∀ k, ¬ s.project.touches u k →
      ((s.update u).project.content k).unplaced = (s.project.content k).unplaced :=
    fun k hk => Project.unplaced_content_edit hu hk
  constructor
  · intro k hk
    rw [Compilation.describe_after, Compilation.describe_after, hcontent k hk]
  · rintro k (hk | hk)
    · exact (Compilation.lineage_eq_of_keepsClearOf hcontent hk qs qs').symm
    · exact Compilation.lineage_eq_of_keepsClearOf (fun k hk => (hcontent k hk).symm) hk qs' qs

/-- A class behind two other files, and its base type. -/
def Snapshot.behind : Snapshot :=
  initial.update (.addFiles [⟨"x.cs", [⟨"", "X", .classType, [], [], [], false⟩]⟩,
    ⟨"y.cs", [⟨"", "Y", .classType, [], [], [], false⟩]⟩,
    ⟨"a.cs", [⟨"", "A", .classType, [], [⟨"", "Base", 0⟩], [], false⟩]⟩,
    ⟨"b.cs", [⟨"", "Base", .classType, [], [], [], false⟩]⟩])

/-- The first file is renamed to the second and replaces it, so that the class moves up. -/
theorem file_update_is_local_renamed :
    let u := .changeFile (some "x.cs") (some ⟨"y.cs", [⟨"", "Z", .classType, [], [], [], false⟩]⟩)
    let c := (Compilation.create .behind).after [.checkAll]
    let c' := (Compilation.create (Snapshot.behind.update u)).after []
    u.onFiles ∧ ¬ Snapshot.behind.project.touches u ⟨"", "A", 0⟩ ∧
    (Catalog.ofProject Snapshot.behind.project).KeepsClearOf (Snapshot.behind.project.touches u)
      ⟨"", "A", 0⟩ ∧
    (c.describe ⟨"", "A", 0⟩).parts = [⟨2, 0⟩] ∧ (c'.describe ⟨"", "A", 0⟩).parts = [⟨1, 0⟩] ∧
    (c'.describe ⟨"", "A", 0⟩).unplaced = (c.describe ⟨"", "A", 0⟩).unplaced ∧
    c'.lineage ⟨"", "A", 0⟩ = c.lineage ⟨"", "A", 0⟩ := by
  intro u c c'
  have hu : u.onFiles := rfl
  obtain ⟨hdescribe, hlineage⟩ := file_update_is_local .behind u hu [.checkAll] []
  have hA : ¬ Snapshot.behind.project.touches u ⟨"", "A", 0⟩ := by decide
  have hBase : ¬ Snapshot.behind.project.touches u ⟨"", "Base", 0⟩ := by decide
  have hlinks : (Snapshot.behind.project.content ⟨"", "A", 0⟩).bases = [⟨"", "Base", 0⟩] := by
    decide +kernel
  have hnone : (Snapshot.behind.project.content ⟨"", "Base", 0⟩).bases = [] := by decide +kernel
  have hclear : (Catalog.ofProject Snapshot.behind.project).KeepsClearOf
      (Snapshot.behind.project.touches u) ⟨"", "A", 0⟩ := by
    refine Catalog.keepsClearOf_of_linksTo hA fun base hl => ?_
    rw [Catalog.linksTo_iff, hlinks, List.mem_singleton] at hl
    subst hl
    exact Catalog.keepsClearOf_of_linksTo hBase fun base hl => by
      simp [Catalog.linksTo_iff, hnone] at hl
  exact ⟨hu, hA, hclear, by decide +kernel, by decide +kernel, hdescribe _ hA,
    hlineage _ (.inl hclear)⟩

end TypeCatalog
