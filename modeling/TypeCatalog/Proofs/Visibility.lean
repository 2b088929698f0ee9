import TypeCatalog.Proofs.References

/-!
# The visible types

A project lists its visible keys by itself: those that source files declare, and then for each
assembly those that it exports and that nothing before it has. The catalog lists the same keys in
the same order, and the assembly for which a key is listed is the one that look-ups take its type
from. Once all visible keys are settled, to list them again only counts hits.
-/

namespace TypeCatalog

def Origin.assembly? : Origin → Option AssemblyName
  | .assembly name => some name
  | _ => none

namespace Project

/-- The keys that source files declare, in the order of their first declarations. -/
def sourceKeys (p : Project) : List TypeKey :=
  (p.files.toList.flatMap fun file => file.declarations.map Declaration.key).eraseDups

/-- What assemblies export one after the other under keys that were not met before, each key with
the assembly that it is listed for. -/
def listExports (met : List TypeKey) : List Assembly → List (TypeKey × Option AssemblyName)
  | [] => []
  | a :: rest =>
    ((a.exports.map Declaration.key).filter (· ∉ met)).eraseDups.map (·, some a.name) ++
      listExports (met ++ a.exports.map Declaration.key) rest

/-- All visible keys, source keys in front. -/
def listing (p : Project) : List (TypeKey × Option AssemblyName) :=
  p.sourceKeys.map (·, none) ++ listExports p.sourceKeys p.references.toList

theorem map_fst_listExports (met : List TypeKey) (references : List Assembly) :
    (listExports met references).map Prod.fst =
      ((references.flatMap fun a => a.exports.map Declaration.key).filter (· ∉ met)).eraseDups := by
  induction references generalizing met with
  | nil => rfl
  | cons a references ih =>
    rw [listExports, List.map_append, ih, List.flatMap_cons, List.filter_append,
      List.eraseDups_append, List.map_map]
    congr 1
    · exact List.map_id _
    · rw [List.removeAll, List.filter_filter]
      generalize a.exports.map Declaration.key = own
      congr 1
      refine List.filter_congr fun k _ => ?_
      by_cases hk : k ∈ met <;> simp [hk]

/-- A key is listed for the first assembly that exports it, unless it was met before. -/
theorem of_mem_listExports {met : List TypeKey} {references : List Assembly} {k : TypeKey}
    {name? : Option AssemblyName} (h : (k, name?) ∈ listExports met references) :
    k ∉ met ∧ ∃ a, references.find? (·.exports.any (·.key = k)) = some a ∧ name? = some a.name := by
  induction references generalizing met with
  | nil => cases h
  | cons a references ih =>
    rcases List.mem_append.1 h with h | h
    · obtain ⟨j, hj, he⟩ := List.mem_map.1 h
      obtain ⟨rfl, rfl⟩ := Prod.mk.inj he
      obtain ⟨hexports, hmet⟩ := List.mem_filter.1 (List.mem_eraseDups.1 hj)
      obtain ⟨d, hd, rfl⟩ := List.mem_map.1 hexports
      have hany : a.exports.any (·.key = d.key) = true :=
        List.any_eq_true.2 ⟨d, hd, decide_eq_true rfl⟩
      exact ⟨by simpa using hmet, a, List.find?_cons_of_pos hany, rfl⟩
    · obtain ⟨hmet, hfirst⟩ := ih h
      obtain ⟨hmet, hexports⟩ : k ∉ met ∧ k ∉ a.exports.map Declaration.key := by
        simpa [not_or] using hmet
      have hany : ¬ a.exports.any (·.key = k) = true := by simpa using hexports
      exact ⟨hmet, by rwa [List.find?_cons, eq_false_of_ne_true hany]⟩

variable {p : Project} {k : TypeKey}

theorem mem_sourceKeys : k ∈ p.sourceKeys ↔ p.partsOf k ≠ [] := by
  rw [sourceKeys, List.mem_eraseDups, ← Part.map_key_ofFiles, partsOf, ne_eq,
    List.filter_eq_nil_iff]
  simp [eq_comm]

/-- The catalog has the keys of the listing, in its order. -/
theorem visibleKeys_eq (p : Project) :
    (Catalog.ofProject p).visibleKeys = p.listing.map Prod.fst := by
  have hkeys : (Catalog.ofProject p).index.keys = p.sourceKeys := by
    rw [DeclIndex.keys, distinct_eq_eraseDups, sourceKeys, ← Part.map_key_ofFiles]
    rfl
  have hnodup : p.sourceKeys.Nodup := hkeys ▸ nodup_distinct _
  rw [Catalog.visibleKeys, hkeys, distinct_eq_eraseDups, List.eraseDups_append,
    eraseDups_of_nodup hnodup, listing, List.map_append, map_fst_listExports, List.map_map]
  congr 1
  · exact (List.map_id _).symm
  · rw [List.removeAll]
    congr 1
    exact List.filter_congr fun k _ => by simp

/-- What a project declares under a listed key comes from where the key is listed for. -/
theorem assembly?_content_of_mem_listing {name? : Option AssemblyName}
    (h : (k, name?) ∈ p.listing) : (p.content k).origin.assembly? = name? := by
  rcases List.mem_append.1 h with h | h
  · obtain ⟨j, hj, he⟩ := List.mem_map.1 h
    obtain ⟨rfl, rfl⟩ := Prod.mk.inj he
    obtain ⟨first, rest, hp⟩ := List.exists_cons_of_ne_nil (mem_sourceKeys.1 hj)
    rw [content, hp]
    rfl
  · obtain ⟨hk, a, ha, rfl⟩ := of_mem_listExports h
    have hp : p.partsOf k = [] := by simpa [mem_sourceKeys] using hk
    have hx : p.exporter? k = some a := ha
    have hany : a.exports.any (·.key = k) = true := by simpa using List.find?_some ha
    have hsome : (a.find? k).isSome := List.find?_isSome.2 (List.any_eq_true.1 hany)
    obtain ⟨d, hd⟩ := Option.isSome_iff_exists.1 hsome
    rw [content, hp, hx, Option.bind_some, hd]
    rfl

end Project

namespace Store

variable {c : Catalog} {s s' : Store} {ks : List TypeKey} {ts : Array ResolvedType}

theorem AnswersAll.map_key (h : s.AnswersAll c ks ts s') : ts.toList.map ResolvedType.key = ks := by
  have hkey : ∀ k ∈ ks, (s'.find? k).map ResolvedType.key = some k := by
    intro k hk
    obtain ⟨t, ht⟩ := Option.isSome_iff_exists.1 (h.isSome_find? hk)
    rw [ht, Option.map_some, (h.consistent.settled_iff.1 ht).1]
  refine (List.map_inj_right fun _ _ => Option.some.inj).1 ?_
  calc (ts.toList.map ResolvedType.key).map some
      = (ts.toList.map some).map (Option.map ResolvedType.key) := by
        rw [List.map_map, List.map_map]
        rfl
    _ = ks.map fun k => (s'.find? k).map ResolvedType.key := by
        rw [h.find?, List.map_map]
        rfl
    _ = ks.map some := List.map_congr_left hkey

/-- A second time the same types are found. -/
theorem AnswersAll.eq_of_grows {s₁ s₂ : Store} {ts' : Array ResolvedType}
    (h : s.AnswersAll c ks ts s') (h' : s₁.AnswersAll c ks ts' s₂) (hg : s'.Grows s₁) :
    ts'.toList = ts.toList := by
  refine (List.map_inj_right fun _ _ => Option.some.inj).1 ?_
  rw [h'.find?, h.find?]
  refine List.map_congr_left fun k hk => ?_
  obtain ⟨t, ht⟩ := Option.isSome_iff_exists.1 (h.isSome_find? hk)
  rw [ht, h'.grows.find? (hg.find? ht)]

/-- To look up settled keys only counts hits. -/
theorem resolveAll_of_settled (c : Catalog) (h : ∀ k ∈ ks, (s.find? k).isSome) :
    (s.resolveAll c ks).2 =
      { s with count := ⟨s.count.hits + ks.length, s.count.misses⟩ } := by
  induction ks generalizing s with
  | nil => rfl
  | cons k ks ih =>
    obtain ⟨hk, hks⟩ := List.forall_mem_cons.1 h
    obtain ⟨t, ht⟩ := Option.isSome_iff_exists.1 hk
    rw [resolveAll_cons, resolve_of_settled c ht]
    refine (ih (s := s.hit) hks).trans ?_
    rw [List.length_cons, hit, Nat.add_assoc, Nat.add_comm 1]

/-- The types of all visible keys come from where the keys are listed for. -/
theorem AnswersAll.map_listing {p : Project}
    (h : s.AnswersAll (.ofProject p) (Catalog.ofProject p).visibleKeys ts s') :
    ts.toList.map (fun t => (t.key, t.assembly?)) = p.listing := by
  have horigin : ∀ t ∈ ts.toList,
      (t.key, t.assembly?) = (t.key, (p.content t.key).origin.assembly?) := by
    intro t ht
    rw [← (h.consistent.depicts (h.find?_of_mem ht)).2.origin]
    rfl
  have hlisting : ∀ l ∈ p.listing, (l.1, (p.content l.1).origin.assembly?) = l :=
    fun l hl => Prod.ext rfl (Project.assembly?_content_of_mem_listing hl)
  calc ts.toList.map (fun t => (t.key, t.assembly?))
      = (ts.toList.map ResolvedType.key).map fun k => (k, (p.content k).origin.assembly?) := by
        rw [List.map_congr_left horigin, List.map_map]
        rfl
    _ = p.listing.map fun l => (l.1, (p.content l.1).origin.assembly?) := by
        rw [h.map_key, Project.visibleKeys_eq, List.map_map]
        rfl
    _ = p.listing := by
        rw [List.map_congr_left hlisting, List.map_id']

end Store

namespace Compilation

theorem allTypes_eq (c : Compilation) :
    c.allTypes = ((c.store.resolveAll c.catalog c.catalog.visibleKeys).1.toList,
      { c with store := (c.store.resolveAll c.catalog c.catalog.visibleKeys).2 }) := rfl

theorem answersAll_allTypes (s : Snapshot) (qs : List Query) :
    ∃ found : Array ResolvedType, ((create s).after qs).allTypes.1 = found.toList ∧
      ((create s).after qs).store.AnswersAll (.ofProject s.project)
        (Catalog.ofProject s.project).visibleKeys found ((create s).after qs).allTypes.2.store := by
  have h := (reached_after s qs).consistent.resolveAll (Catalog.ofProject s.project).visibleKeys
  rw [← catalog_after s qs] at h ⊢
  exact ⟨_, rfl, h⟩

end Compilation

/-- In every history all types are those of the listing of the project, in its order and each from
the assembly that it is listed for; they have each declared key once and are no placeholders.
Whatever is asked in between, to ask for all types again yields the same types and only counts
hits. -/
theorem all_types_are_visible (s : Snapshot) (qs later : List Query) :
    let ts := ((Compilation.create s).after qs).allTypes.1
    let c := (Compilation.create s).after (qs ++ .allTypes :: later)
    ts.map (fun t => (t.key, t.assembly?)) = s.project.listing ∧
    (ts.map ResolvedType.key).Nodup ∧
    (∀ t ∈ ts, ¬ t.isUnknown) ∧
    (∀ k, k ∈ ts.map ResolvedType.key ↔ s.project.declares k) ∧
    c.allTypes = (ts, { c with store := { c.store with
      count := ⟨c.store.count.hits + ts.length, c.store.count.misses⟩ } }) := by
  intro ts c
  obtain ⟨found, hfound_eq, hfound⟩ := Compilation.answersAll_allTypes s qs
  obtain ⟨found', hfound'_eq, hfound'⟩ :=
    Compilation.answersAll_allTypes s (qs ++ .allTypes :: later)
  have hts : ts = found.toList := hfound_eq
  have hkeys : ts.map ResolvedType.key = (Catalog.ofProject s.project).visibleKeys :=
    hts ▸ hfound.map_key
  refine ⟨hts ▸ hfound.map_listing, ?_, fun t ht => ?_, fun k => ?_, ?_⟩
  · rw [hkeys]
    exact Catalog.nodup_visibleKeys _
  · have hvisible : t.key ∈ (Catalog.ofProject s.project).visibleKeys :=
      hkeys ▸ List.mem_map_of_mem ht
    rw [hfound.consistent.isUnknown_iff (hfound.find?_of_mem (hts ▸ ht)), Bool.not_eq_false]
    exact Catalog.mem_visibleKeys_ofProject.1 hvisible
  · rw [hkeys]
    exact Catalog.mem_visibleKeys_ofProject
  · have hgrows : ((Compilation.create s).after qs).allTypes.2.store.Grows c.store := by
      change Store.Grows _ ((Compilation.create s).after (qs ++ .allTypes :: later)).store
      rw [Compilation.after_append]
      exact Compilation.grows_after
        (Compilation.reached_ask (Compilation.reached_after_own s qs) .allTypes) later
    have hsettled : ∀ k ∈ c.catalog.visibleKeys, (c.store.find? k).isSome := by
      rw [Compilation.catalog_after]
      exact fun k hk => hgrows.isSome_find? (hfound.isSome_find? hk)
    have hlength : ts.length = c.catalog.visibleKeys.length := by
      rw [Compilation.catalog_after, ← hkeys, List.length_map]
    have hsame : c.allTypes.1 = ts := by
      rw [hfound'_eq, hfound.eq_of_grows hfound' hgrows, hts]
    refine Prod.ext hsame ?_
    rw [Compilation.allTypes_eq, Store.resolveAll_of_settled _ hsettled, hlength]

/-- A class with two references. The second exports a key twice, a key that the first exports, too,
and the key of the class itself. -/
def Snapshot.overlapping : Snapshot :=
  Snapshot.linked.update (.addReferences [⟨⟨"Second", ⟨1, 0, 0, 0⟩⟩,
    [⟨"", "Extra", .classType, [], [], [], false⟩, ⟨"", "Lib", .structType, [], [], [], false⟩,
      ⟨"", "Extra", .structType, [], [], [], false⟩, ⟨"", "A", .structType, [], [], [], false⟩]⟩])

theorem all_types_are_visible_overlapping :
    let ts := ((Compilation.create .overlapping).after [.resolve ⟨"", "Extra", 0⟩]).allTypes.1
    let first : AssemblyName := ⟨"First", ⟨1, 0, 0, 0⟩⟩
    let second : AssemblyName := ⟨"Second", ⟨1, 0, 0, 0⟩⟩
    ts.map (fun t => (t.key, t.assembly?)) = [(⟨"", "A", 0⟩, none), (⟨"", "Lib", 0⟩, some first),
      (⟨"", "Extra", 0⟩, some second)] ∧
    ∃ t ∈ ts, t.key = ⟨"", "Lib", 0⟩ ∧ ¬ t.isUnknown := by
  intro ts first second
  obtain ⟨hlisting, -, hknown, -⟩ :=
    all_types_are_visible .overlapping [.resolve ⟨"", "Extra", 0⟩] []
  have hlist : Snapshot.overlapping.project.listing = [(⟨"", "A", 0⟩, none),
      (⟨"", "Lib", 0⟩, some first), (⟨"", "Extra", 0⟩, some second)] := by decide +kernel
  have hmem : (⟨"", "Lib", 0⟩, some first) ∈ ts.map (fun t => (t.key, t.assembly?)) := by
    rw [hlisting, hlist]
    decide
  obtain ⟨t, ht, he⟩ := List.mem_map.1 hmem
  exact ⟨hlisting.trans hlist, t, ht, congrArg Prod.fst he, hknown t ht⟩

end TypeCatalog
