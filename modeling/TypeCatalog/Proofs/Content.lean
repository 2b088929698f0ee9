import TypeCatalog.Proofs.Lookup

/-!
# What a project declares under a key

The content of a key is read off the project alone: its source files in order, or else the first
reference that exports the key. Nothing in it depends on an index, a store or a history. The outline
that a catalog has of a key says the same, and so does every settled type of a store: its kind, its
origin, its parts, its members and the keys of its base types are those of the content.
-/

namespace TypeCatalog

/-- What there is to know of a type without the numbers of other types. -/
structure Content where
  kind? : Option TypeKind
  origin : Origin
  parts : List DeclId
  members : List SitedMember
  bases : List TypeKey
  deriving DecidableEq, Repr

namespace Project

/-- All declarations of a key, in file order and then in declaration order. -/
def partsOf (p : Project) (k : TypeKey) : List Part :=
  (Part.ofFiles p.files.toList).filter (·.key = k)

/-- The declarations that are merged. In strict mode these are the partial ones if the first is
partial, and the first alone otherwise. -/
def merged (options : Options) (first : Part) (parts : List Part) : List Part :=
  if options.strictPartial then
    if first.declaration.isPartial then parts.filter (·.declaration.isPartial) else [first]
  else parts

/-- Base types without repetition; if there are none, the root of the kind where it is implied. -/
def rooted (options : Options) (k : TypeKey) (kind : TypeKind) (bases : List TypeKey) :
    List TypeKey :=
  if bases = [] then
    if options.implicitRoots then kind.root?.toList.filter (· ≠ k) else []
  else bases.eraseDups

/-- The first reference that exports a key. -/
def exporter? (p : Project) (k : TypeKey) : Option Assembly :=
  p.references.toList.find? fun a => a.exports.any (·.key = k)

def content (p : Project) (k : TypeKey) : Content :=
  match p.partsOf k with
  | first :: rest =>
    let kept := merged p.options first (first :: rest)
    { kind? := some first.declaration.kind
      origin := .source (kept.map Part.file).eraseDups
      parts := kept.map Part.id
      members := kept.flatMap fun part => part.declaration.members.map (⟨·, some part.file⟩)
      bases := rooted p.options k first.declaration.kind
        (kept.flatMap fun part => part.declaration.bases) }
  | [] =>
    match (p.exporter? k).bind fun a => (a.find? k).map (a, ·) with
    | some (a, d) =>
      { kind? := some d.kind
        origin := .assembly a.name
        parts := []
        members := d.members.map (⟨·, none⟩)
        bases := rooted p.options k d.kind d.bases }
    | none => ⟨none, .unknown .unresolved, [], [], []⟩

end Project

/-- A type of a store is what the content of its key says. -/
structure Store.Depicts (s : Store) (t : ResolvedType) (content : Content) : Prop where
  kind : t.kind? = content.kind?
  origin : t.origin = content.origin
  parts : t.parts = content.parts
  members : t.members = content.members.map (⟨·, t.id⟩)
  bases : t.bases.map (fun b => (s.get? b).map ResolvedType.key) = content.bases.map some

namespace Outline

theorem keptParts_eq (options : Options) (first : Part) (rest : List Part) :
    keptParts options first rest = Project.merged options first (first :: rest) := by
  unfold keptParts Project.merged agree
  cases options.strictPartial <;> cases h : first.declaration.isPartial <;> simp [h]

theorem map_explicitLinks (bases : List (Option String × TypeKey)) :
    (explicitLinks bases).map BaseLink.key = (bases.map Prod.snd).eraseDups := by
  rw [explicitLinks, map_firstBy, List.map_map]
  rfl

theorem map_withRoot (options : Options) (k : TypeKey) (kind : TypeKind) (file : Option String)
    (bases : List (Option String × TypeKey)) :
    (withRoot options k kind file (explicitLinks bases)).map BaseLink.key =
      Project.rooted options k kind (bases.map Prod.snd) := by
  have hmap := map_explicitLinks bases
  unfold Project.rooted
  cases bases with
  | nil =>
    have hnil : explicitLinks [] = [] := List.map_eq_nil_iff.1 hmap
    rw [hnil, withRoot]
    cases options.implicitRoots with
    | false => rfl
    | true => cases hk : kind.root? with
      | none => rfl
      | some root => by_cases hr : root = k <;> simp [hr, Option.filter]
  | cons base bases =>
    cases hl : explicitLinks (base :: bases) with
    | nil =>
      rw [hl, List.map_cons, List.eraseDups_cons] at hmap
      cases hmap
    | cons link links =>
      have hroot : withRoot options k kind file (link :: links) = link :: links := rfl
      rw [hroot, ← hl, hmap]
      rfl

end Outline

theorem Catalog.findExport?_eq (p : Project) (k : TypeKey) :
    (ofProject p).findExport? k =
      ((p.exporter? k).bind fun a => (a.find? k).map (a, ·)).map fun (a, d) => (a.name, d) := by
  unfold findExport? Project.exporter? ofProject
  induction p.references.toList with
  | nil => rfl
  | cons a references ih =>
    rw [List.findSome?_cons, List.find?_cons]
    cases hd : a.find? k with
    | none =>
      have ha : a.exports.any (·.key = k) = false := by
        simpa [Assembly.find?] using hd
      simpa [ha] using ih
    | some d =>
      have ha : a.exports.any (·.key = k) = true := by
        obtain ⟨hmem, hkey⟩ := Assembly.key_of_find? hd
        exact List.any_eq_true.2 ⟨d, hmem, by simpa using hkey⟩
      simp [ha, hd]

namespace Catalog

/-- A key has the outline of its parts, or else of its first export. -/
theorem outline?_eq (p : Project) (k : TypeKey) : (ofProject p).outline? k =
    match p.partsOf k with
    | first :: rest => some (.ofParts p.options k first rest)
    | [] => ((p.exporter? k).bind fun a => (a.find? k).map (a, ·)).map
        fun (a, d) => .ofExport p.options k a.name d := by
  have hd : (ofProject p).index.declarations k = p.partsOf k := DeclIndex.declarations_eq _ k
  rw [outline?, hd]
  cases p.partsOf k with
  | cons first rest => rfl
  | nil =>
    simp only [findExport?_eq, Option.map_map]
    rfl

/-- The declared links lead to the base types that the project names. -/
theorem map_key_links (p : Project) (k : TypeKey) :
    ((ofProject p).links k).map BaseLink.key = (p.content k).bases := by
  rw [links, outline?_eq, Project.content]
  cases p.partsOf k with
  | cons first rest =>
    simp [Outline.ofParts, Outline.map_withRoot, Outline.keptParts_eq, List.map_flatMap,
      Function.comp_def]
  | nil =>
    cases (p.exporter? k).bind fun a => (a.find? k).map (a, ·) with
    | none => rfl
    | some exported => simp [Outline.ofExport, Outline.map_withRoot, Function.comp_def]

theorem linksTo_iff {p : Project} {k base : TypeKey} :
    (ofProject p).LinksTo k base ↔ base ∈ (p.content k).bases := by
  rw [LinksTo, map_key_links]

/-- A type that is bound as its key is declared, to types of the declared base keys, is what the
content of the project says. -/
theorem depicts {p : Project} {s : Store} {t : ResolvedType} {bases : List TypeId}
    (hb : t.binding = (ofProject p).binding t.key bases)
    (hbases : t.bases.map (fun b => (s.get? b).map ResolvedType.key) =
      (p.content t.key).bases.map some) : s.Depicts t (p.content t.key) := by
  suffices hdeclared : t.kind? = (p.content t.key).kind? ∧ t.origin = (p.content t.key).origin ∧
      t.parts = (p.content t.key).parts ∧
      t.members = (p.content t.key).members.map (⟨·, t.id⟩) by
    obtain ⟨hkind, horigin, hparts, hmembers⟩ := hdeclared
    exact ⟨hkind, horigin, hparts, hmembers, hbases⟩
  -- the base types are as they should be; the rest is read off the definition
  clear hbases
  obtain ⟨id, k, binding⟩ := t
  obtain rfl : binding = (ofProject p).binding k bases := hb
  unfold Catalog.binding Project.content
  rw [outline?_eq]
  cases p.partsOf k with
  | cons first rest =>
    simp [ResolvedType.kind?, ResolvedType.origin, ResolvedType.parts, ResolvedType.members,
      ResolvedType.definition?, Outline.ofParts, Outline.keptParts_eq, distinct_eq_eraseDups]
  | nil =>
    cases (p.exporter? k).bind fun a => (a.find? k).map (a, ·) with
    | none => exact ⟨rfl, rfl, rfl, rfl⟩
    | some exported => exact ⟨rfl, rfl, rfl, rfl⟩

end Catalog

namespace Store

/-- Every settled type is what the content of its key says. -/
theorem Consistent.depicts {p : Project} {s : Store} {o : Std.TreeSet TypeKey}
    (h : s.Consistent (.ofProject p) o) {k : TypeKey} {t : ResolvedType} (ht : s.find? k = some t) :
    t.key = k ∧ s.Depicts t (p.content k) := by
  obtain ⟨rfl, -, -⟩ := h.settled_iff.1 ht
  obtain ⟨hb, hbound⟩ := h.bound ht
  have hbases := map_key_of_bound hbound
  rw [Catalog.map_key_links] at hbases
  exact ⟨rfl, Catalog.depicts hb hbases⟩

/-- What a store tells of a type without numbers. -/
def describe (s : Store) (t : ResolvedType) : Content where
  kind? := t.kind?
  origin := t.origin
  parts := t.parts
  members := t.members.map ResolvedMember.sited
  bases := (s.directBases t).map ResolvedType.key

theorem Depicts.describe_eq {s : Store} {t : ResolvedType} {content : Content}
    (h : s.Depicts t content) : s.describe t = content := by
  have hbases : (s.directBases t).map ResolvedType.key = content.bases := by
    have hkeys := congrArg (List.filterMap id) h.bases
    simpa [List.filterMap_map, Function.comp_def, directBases, List.map_filterMap] using hkeys
  have hmembers : t.members.map ResolvedMember.sited = content.members := by
    simp [h.members, Function.comp_def]
  rw [describe, h.kind, h.origin, h.parts, hmembers, hbases]

end Store

namespace Compilation

/-- What a compilation tells of a key when it looks it up next. -/
def describe (c : Compilation) (k : TypeKey) : Content :=
  (c.lookup k).2.store.describe (c.lookup k).1

/-- Every history tells what the project declares. -/
theorem describe_after (s : Snapshot) (qs : List Query) (k : TypeKey) :
    ((create s).after qs).describe k = s.project.content k := by
  have ha := (reached_after s qs).consistent.resolve k
  have hd := (ha.consistent.depicts ha.find?).2.describe_eq
  rw [← catalog_after s qs] at hd
  exact hd

end Compilation

/-- In every history all settled types are what the project declares under their keys, and so is the
answer to the next query for a key without fault, which is never refused. -/
theorem resolve_depicts_content (s : Snapshot) (qs : List Query) :
    (∀ k t, ((Compilation.create s).after qs).store.find? k = some t →
      t.key = k ∧ ((Compilation.create s).after qs).store.Depicts t (s.project.content k)) ∧
    ∀ k, k.fault? = none → ∃ t c, ((Compilation.create s).after qs).resolve k = .ok (t, c) ∧
      t.key = k ∧ c.store.Depicts t (s.project.content k) := by
  have h := (Compilation.reached_after s qs).consistent
  refine ⟨fun k t ht => h.depicts ht, fun k hk => ?_⟩
  have ha := h.resolve k
  rw [← Compilation.catalog_after s qs] at ha
  refine ⟨_, _, Compilation.resolve_of_sound hk, ?_⟩
  have hc : (((Compilation.create s).after qs).lookup k).2.store.Consistent (.ofProject s.project)
      ∅ := Compilation.catalog_after s qs ▸ ha.consistent
  exact hc.depicts ha.find?

/-- A class in two files, with the same base type in both. -/
def Snapshot.twoFiles : Snapshot :=
  initial.updateAll [
    .addFile ⟨"a.cs", [⟨"", "Node", .classType, [], [⟨"", "Base", 0⟩],
      [⟨.field, "next", none, [], false⟩], true⟩]⟩,
    .addFile ⟨"b.cs", [⟨"", "Node", .classType, [], [⟨"", "Base", 0⟩],
      [⟨.field, "prev", none, [], false⟩], true⟩]⟩]

theorem resolve_depicts_content_twoFiles :
    (∃ t, ((Compilation.create .twoFiles).after [.resolve ⟨"", "Base", 0⟩]).store.find?
        ⟨"", "Base", 0⟩ = some t ∧
      ((Compilation.create .twoFiles).after [.resolve ⟨"", "Base", 0⟩]).store.Depicts t
        ⟨none, .unknown .unresolved, [], [], []⟩) ∧
    ∃ t c, ((Compilation.create .twoFiles).after [.resolve ⟨"", "Base", 0⟩]).resolve
        ⟨"", "Node", 0⟩ = .ok (t, c) ∧
      c.store.Depicts t ⟨some .classType, .source ["a.cs", "b.cs"], [⟨0, 0⟩, ⟨1, 0⟩],
        [⟨⟨.field, "next", none, [], false⟩, some "a.cs"⟩,
          ⟨⟨.field, "prev", none, [], false⟩, some "b.cs"⟩], [⟨"", "Base", 0⟩]⟩ := by
  obtain ⟨hsettled, hnext⟩ := resolve_depicts_content .twoFiles [.resolve ⟨"", "Base", 0⟩]
  constructor
  · have ht : ((Compilation.create .twoFiles).after [.resolve ⟨"", "Base", 0⟩]).store.find?
        ⟨"", "Base", 0⟩ = some ⟨0, ⟨"", "Base", 0⟩, .unknown .unresolved⟩ := by decide +kernel
    exact ⟨_, ht, (hsettled _ _ ht).2⟩
  · obtain ⟨t, c, hr, -, hd⟩ := hnext ⟨"", "Node", 0⟩ (by decide)
    exact ⟨t, c, hr, hd⟩

end TypeCatalog
