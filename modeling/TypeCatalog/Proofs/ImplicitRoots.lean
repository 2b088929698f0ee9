import TypeCatalog.Proofs.BreadthFirst
import TypeCatalog.Proofs.References

/-!
# Implied roots

Where roots are implied, a declared type without base types names none and is an interface or the
root of its own kind. Base links lead to smaller numbers, so every way up from a type ends at a type
without base types. If all types on the ways are of one kind, they all end at the root of that kind,
whether or not anything declares it.
-/

namespace TypeCatalog

theorem TypeKind.forall_mem_root?_iff {kind : TypeKind} {k : TypeKey} :
    (∀ root ∈ kind.root?, root = k) ↔ kind = .interfaceType ∨ kind.root? = some k := by
  cases kind <;> simp [root?]

theorem ResolvedType.exists_kind? {t : ResolvedType} (h : t.isUnknown = false) :
    ∃ kind, t.kind? = some kind := by
  obtain ⟨id, key, binding⟩ := t
  cases binding with
  | unknown reason => cases h
  | declared d bases => exact ⟨d.kind, rfl⟩

namespace Project

variable {p : Project} {k : TypeKey} {kind : TypeKind}

theorem rooted_eq_nil_iff {options : Options} (h : options.implicitRoots = true)
    {bases : List TypeKey} : rooted options k kind bases = [] ↔
      bases.eraseDups = [] ∧ ∀ root ∈ kind.root?, root = k := by
  rw [rooted, eraseDups_eq_nil_iff]
  by_cases hbases : bases = []
  · simp [h, hbases, List.filter_eq_nil_iff]
  · simp [hbases, eraseDups_eq_nil_iff]

/-- A declared key has no base types only if it names none and is an interface or the root of its
kind. -/
theorem bases_content_eq_nil_iff (h : p.options.implicitRoots = true)
    (hkind : (p.content k).kind? = some kind) : (p.content k).bases = [] ↔
      p.named k = [] ∧ ∀ root ∈ kind.root?, root = k := by
  unfold content named kept at *
  cases hp : p.partsOf k with
  | cons first rest =>
    rw [hp] at hkind
    obtain rfl : first.declaration.kind = kind := Option.some.inj hkind
    exact rooted_eq_nil_iff h
  | nil =>
    rw [hp] at hkind
    cases hx : p.exporter? k with
    | none => simp [hx] at hkind
    | some a =>
      cases hd : a.find? k with
      | none => simp [hx, hd] at hkind
      | some d =>
        obtain rfl : d.kind = kind := by simpa [hx, hd] using hkind
        simpa [hd] using rooted_eq_nil_iff h

end Project

namespace Store

variable {p : Project} {s : Store} {o : Std.TreeSet TypeKey} {t u : ResolvedType}

theorem Depicts.bases_eq_nil_iff {content : Content} (h : s.Depicts t content) :
    t.bases = [] ↔ content.bases = [] := by
  rw [← List.map_eq_nil_iff, h.bases, List.map_eq_nil_iff]

/-- Of the declared types only interfaces and the roots of their own kinds have no base types. -/
theorem Consistent.bases_eq_nil_iff (h : s.Consistent (.ofProject p) o)
    (hroots : p.options.implicitRoots = true) (ht : s.find? t.key = some t) {kind : TypeKind}
    (hkind : t.kind? = some kind) :
    t.bases = [] ↔ p.named t.key = [] ∧ ∀ root ∈ kind.root?, root = t.key := by
  obtain ⟨-, hd⟩ := h.depicts ht
  rw [hd.bases_eq_nil_iff, Project.bases_content_eq_nil_iff hroots (hd.kind ▸ hkind)]

namespace Consistent

section Ascent

variable {c : Catalog} (h : s.Consistent c o) (ht : s.get? t.id = some t)
include h ht

theorem id_lt_of_mem_closure (hu : u ∈ s.closure t) : u.id < t.id :=
  h.lt_of_transGen ((h.derives_iff ht (h.get?_of_mem_closure hu)).1
    (List.any_eq_true.2 ⟨u, hu, decide_eq_true rfl⟩))

/-- The hierarchy above a type has the base types of all its types. -/
theorem exists_mem_closure_of_mem_bases (hu : u ∈ t :: s.closure t) {b : TypeId}
    (hb : b ∈ u.bases) : ∃ v ∈ s.closure t, v.id = b ∧ b < u.id := by
  have hget : s.get? u.id = some u := by
    rcases List.mem_cons.1 hu with rfl | hu
    · exact ht
    · exact h.get?_of_mem_closure hu
  have hle : u.id ≤ t.id := by
    rcases List.mem_cons.1 hu with rfl | hu
    · exact Nat.le_refl _
    · exact (h.id_lt_of_mem_closure ht hu).le
  have hlt : b < u.id := h.base_lt hget b hb
  obtain ⟨v, hv⟩ := exists_get?_of_lt (h.base_lt_size hget b hb)
  have hadmits : s.admits t b := by
    simp [admits, hv, (Nat.lt_of_lt_of_le hlt hle).ne]
  have hmem : b ∈ (s.closure t).map ResolvedType.id := by
    refine h.mem_map_id_closure.2 ⟨?_, hadmits⟩
    rcases List.mem_cons.1 hu with rfl | hu
    · exact .inl hb
    · exact .inr ⟨u, hu, hb⟩
  obtain ⟨v, hv, hid⟩ := List.mem_map.1 hmem
  exact ⟨v, hv, hid, hlt⟩

/-- Each way up ends: numbers decrease along it. -/
theorem exists_bases_eq_nil (hu : u ∈ t :: s.closure t) :
    ∃ v ∈ t :: s.closure t, v.bases = [] := by
  induction hn : u.id using Nat.strongRecOn generalizing u with
  | _ n ih =>
    cases hbases : u.bases with
    | nil => exact ⟨u, hu, hbases⟩
    | cons b bases =>
      obtain ⟨v, hv, hid, hlt⟩ := h.exists_mem_closure_of_mem_bases ht hu
        (hbases ▸ List.mem_cons_self)
      exact ih v.id (hn ▸ hid ▸ hlt) (List.mem_cons_of_mem _ hv) rfl

end Ascent

/-- A type without base types that is of a kind with a root, or stands for the root where nothing
declares it, is what the root stands for. -/
theorem find?_root (h : s.Consistent (.ofProject p) o) (hroots : p.options.implicitRoots = true)
    {kind : TypeKind} {root : TypeKey} (hroot : kind.root? = some root)
    (hget : s.get? u.id = some u) (hbases : u.bases = [])
    (hu : u.kind? = some kind ∨ u.key = root ∧ u.origin = .unknown .unresolved) :
    s.find? root = some u := by
  have hne : u.binding ≠ .unknown .cycle := by
    intro hcycle
    rcases hu with hkind | ⟨-, horigin⟩
    · simp [ResolvedType.kind?, ResolvedType.definition?, hcycle] at hkind
    · simp [ResolvedType.origin, hcycle] at horigin
  have hfind : s.find? u.key = some u := h.settled_iff.2 ⟨rfl, hget, hne⟩
  rcases hu with hkind | ⟨rfl, -⟩
  · obtain ⟨-, hkey⟩ := (h.bases_eq_nil_iff hroots hfind hkind).1 hbases
    rw [hkey root hroot]
    exact hfind
  · exact hfind

end Consistent
end Store

/-- Where roots are implied, in every history: if all types that a type of a kind with a root
inherits from are of the same kind, or are the placeholder for a root that nothing declares, then
the type is the root or inherits from it, and the root is the only one among them without base
types. Whatever its hierarchy is, a declared type has no base types if and only if it names none and
is an interface or the root of its own kind. -/
theorem implied_roots_end_hierarchies (s : Snapshot) (qs : List Query)
    (hroots : s.project.options.implicitRoots = true) :
    let store := ((Compilation.create s).after qs).store
    (∀ kind root k t, kind.root? = some root → store.find? k = some t → t.kind? = some kind →
      (∀ u ∈ store.closure t,
        u.kind? = some kind ∨ u.key = root ∧ u.origin = .unknown .unresolved) →
      ∃ top, store.find? root = some top ∧ (k = root ∨ top ∈ store.closure t) ∧
        ∀ u ∈ t :: store.closure t, u.bases = [] ↔ u = top) ∧
    ∀ t ∈ store.arena.toList, t.isUnknown = false →
      (t.bases = [] ↔ s.project.named t.key = [] ∧
        (t.kind? = some .interfaceType ∨ t.kind?.bind TypeKind.root? = some t.key)) := by
  intro store
  have h : store.Consistent (.ofProject s.project) ∅ := (Compilation.reached_after s qs).consistent
  constructor
  · intro kind root k t hroot ht hkind hclosure
    obtain ⟨rfl, hget, -⟩ := h.settled_iff.1 ht
    have htop : ∀ u ∈ t :: store.closure t, u.bases = [] → store.find? root = some u := by
      intro u hu hbases
      rcases List.mem_cons.1 hu with rfl | hu
      · exact h.find?_root hroots hroot hget hbases (.inl hkind)
      · exact h.find?_root hroots hroot (h.get?_of_mem_closure hu) hbases (hclosure u hu)
    obtain ⟨top, hmem, hbases⟩ := h.exists_bases_eq_nil hget List.mem_cons_self
    have hfind := htop top hmem hbases
    refine ⟨top, hfind, ?_, fun u hu => ⟨fun hu' => ?_, fun he => he ▸ hbases⟩⟩
    · rcases List.mem_cons.1 hmem with rfl | hmem
      · exact .inl (h.settled_iff.1 hfind).1
      · exact .inr hmem
    · exact Option.some.inj ((htop u hu hu').symm.trans hfind)
  · intro t ht hknown
    obtain ⟨kind, hkind⟩ := t.exists_kind? hknown
    have hne : t.binding ≠ .unknown .cycle := fun hcycle => by
      simp [ResolvedType.isUnknown_iff.2 ⟨_, hcycle⟩] at hknown
    rw [h.bases_eq_nil_iff hroots (h.find?_of_mem_arena ht hne) hkind,
      TypeKind.forall_mem_root?_iff, hkind, Option.some.injEq, Option.bind_some]

/-- A class in source that inherits from an exported class, and an interface. Nothing declares the
root of classes. -/
def Snapshot.rootless : Snapshot :=
  initial.updateAll [.setOptions ⟨true, false⟩,
    .addFile ⟨"a.cs", [⟨"", "A", .classType, [], [⟨"", "Base", 0⟩], [], false⟩,
      ⟨"", "I", .interfaceType, [], [], [], false⟩]⟩,
    .addReferences [⟨⟨"Lib", ⟨1, 0, 0, 0⟩⟩, [⟨"", "Base", .classType, [], [], [], false⟩]⟩]]

theorem implied_roots_end_hierarchies_rootless :
    let store := ((Compilation.create .rootless).after [.allTypes]).store
    let object : TypeKey := ⟨"System", "Object", 0⟩
    let top : ResolvedType := ⟨0, object, .unknown .unresolved⟩
    let a : ResolvedType :=
      ⟨2, ⟨"", "A", 0⟩, .declared ⟨.classType, .source [⟨0, 0⟩] ["a.cs"], []⟩ [1]⟩
    let i : ResolvedType :=
      ⟨3, ⟨"", "I", 0⟩, .declared ⟨.interfaceType, .source [⟨0, 1⟩] ["a.cs"], []⟩ []⟩
    Snapshot.rootless.project.options.implicitRoots = true ∧
    (TypeKind.classType.root? = some object ∧ store.find? ⟨"", "A", 0⟩ = some a ∧
      a.kind? = some .classType ∧
      (∀ u ∈ store.closure a,
        u.kind? = some .classType ∨ u.key = object ∧ u.origin = .unknown .unresolved) ∧
      store.find? object = some top ∧ top ∈ store.closure a ∧
      ∀ u ∈ a :: store.closure a, u.bases = [] ↔ u = top) ∧
    (i ∈ store.arena.toList ∧ i.isUnknown = false ∧ i.bases = [] ∧
      Snapshot.rootless.project.named i.key = []) := by
  intro store object top a i
  have hroots : Snapshot.rootless.project.options.implicitRoots = true := by decide
  obtain ⟨hhierarchy, hbases⟩ := implied_roots_end_hierarchies .rootless [.allTypes] hroots
  have ha : store.find? ⟨"", "A", 0⟩ = some a := by decide +kernel
  have hclosure : ∀ u ∈ store.closure a,
      u.kind? = some .classType ∨ u.key = object ∧ u.origin = .unknown .unresolved := by
    decide +kernel
  obtain ⟨top', htop', hmem, honly⟩ := hhierarchy _ _ _ _ rfl ha rfl hclosure
  have htop : store.find? object = some top := by decide +kernel
  obtain rfl : top' = top := Option.some.inj (htop'.symm.trans htop)
  have hi : i ∈ store.arena.toList := by decide +kernel
  exact ⟨hroots, ⟨rfl, ha, rfl, hclosure, htop, hmem.resolve_left (by decide), honly⟩,
    hi, rfl, rfl, ((hbases i hi rfl).1 rfl).1⟩

end TypeCatalog
