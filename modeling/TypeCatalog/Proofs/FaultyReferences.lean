import TypeCatalog.Proofs.FileOrder

/-!
# Faulty references

A query for a key with a fault is refused. A reference that stands in a declaration is not checked,
and neither is the key of a declaration. So a reference misses exactly if nothing declares its key,
and a fault of the key makes no difference: all references with a fault miss exactly if no
declaration has one.
-/

namespace TypeCatalog

/-- What a reference to a key is answered with. -/
structure Project.Refers (p : Project) (k : TypeKey) (t : ResolvedType) : Prop where
  key : t.key = k
  missing_iff : t.origin = .unknown .unresolved ↔ p.declares k = false

/-- References with a fault miss, but for links that are bound to cycle placeholders. -/
structure Compilation.FaultsMiss (c : Compilation) : Prop where
  base : ∀ k t, c.store.find? k = some t → List.Forall₂ (fun base id => base.fault? ≠ none →
    ∃ u, c.get? id = some u ∧ u.key = base ∧
      (u.origin = .unknown .cycle ∨ u.origin = .unknown .unresolved))
    (c.snapshot.project.content k).bases t.bases
  member : ∀ m k, m.sited.member.returnType = some k → k.fault? ≠ none →
    ∃ t, (c.memberType m).1 = some t ∧ t.key = k ∧ t.origin = .unknown .unresolved

namespace Store

variable {p : Project} {s : Store} {o : Std.TreeSet TypeKey} {k : TypeKey} {t : ResolvedType}

theorem Consistent.refers (h : s.Consistent (.ofProject p) o) (ht : s.find? k = some t) :
    p.Refers k t := by
  obtain ⟨rfl, -, -⟩ := h.settled_iff.1 ht
  exact ⟨rfl, (t.origin_eq_unknown_iff .unresolved).trans (h.binding_eq_unresolved_iff ht)⟩

/-- The base types of a settled key answer the references of its declarations. -/
theorem Consistent.forall₂_refers (h : s.Consistent (.ofProject p) o) (ht : s.find? k = some t) :
    List.Forall₂ (fun base id => ∃ u, s.get? id = some u ∧ p.Refers base u)
      (p.content k).bases t.bases := by
  rw [← Catalog.map_key_links, List.forall₂_map_left_iff, List.forall₂_iff_zip]
  obtain ⟨hlength, hbound⟩ := List.forall₂_iff_zip.1 (h.bound ht).2
  refine ⟨hlength, fun {link id} hp => ?_⟩
  obtain ⟨u, hu, hkey, -⟩ := hbound hp
  obtain ⟨v, hv, hmissing⟩ := h.exists_binding_of_mem_zip ht hp
  obtain rfl : u = v := Option.some.inj (hu.symm.trans hv)
  exact ⟨u, hu, hkey, (u.origin_eq_unknown_iff .unresolved).trans hmissing⟩

end Store

namespace Compilation

variable {c : Compilation}

theorem refers_lookup (h : c.store.Reached c.catalog) (k : TypeKey) :
    c.snapshot.project.Refers k (c.lookup k).1 := by
  have ha := h.consistent.resolve k
  have hc : (c.lookup k).2.store.Consistent (.ofProject c.snapshot.project) ∅ :=
    c.catalog_eq ▸ ha.consistent
  exact hc.refers ha.find?

theorem refers_memberType (h : c.store.Reached c.catalog) {m : ResolvedMember} {k : TypeKey}
    (hm : m.sited.member.returnType = some k) :
    ∃ t, (c.memberType m).1 = some t ∧ c.snapshot.project.Refers k t := by
  have hlookup : (c.memberType m).1 = some (c.lookup k).1 := by
    rw [memberType, hm]
  exact ⟨_, hlookup, refers_lookup h k⟩

/-- Faulty references miss exactly where all declared keys are without fault. -/
theorem faultsMiss_iff (h : c.store.Reached c.catalog) :
    c.FaultsMiss ↔ ∀ k, c.snapshot.project.declares k = true → k.fault? = none := by
  constructor
  · intro hmiss k hk
    by_contra hfault
    -- a member of that type, were there one, would be of a declared type
    let m : ResolvedMember := ⟨⟨⟨.field, "", some k, [], false⟩, none⟩, 0⟩
    obtain ⟨t, ht, -, horigin⟩ := hmiss.member m k rfl hfault
    obtain ⟨u, hu, hrefers⟩ := refers_memberType h (m := m) rfl
    obtain rfl : t = u := Option.some.inj (ht.symm.trans hu)
    rw [hrefers.missing_iff.1 horigin] at hk
    cases hk
  · intro hsound
    have hdeclared : ∀ k, k.fault? ≠ none → c.snapshot.project.declares k = false :=
      fun k hk => Bool.eq_false_iff.2 (mt (hsound k) hk)
    constructor
    · intro k t ht
      have hc : c.store.Consistent (.ofProject c.snapshot.project) ∅ := c.catalog_eq ▸ h.consistent
      refine (hc.forall₂_refers ht).imp fun base id ⟨u, hu, hrefers⟩ hfault => ?_
      exact ⟨u, hu, hrefers.key, .inr (hrefers.missing_iff.2 (hdeclared base hfault))⟩
    · intro m k hm hfault
      obtain ⟨t, ht, hrefers⟩ := refers_memberType h hm
      exact ⟨t, ht, hrefers.key, hrefers.missing_iff.2 (hdeclared k hfault)⟩

end Compilation

/-- In every history the base types of a settled type and the declared type of a member have the
keys that the declarations refer to, and are missing exactly if nothing declares these keys. Hence
references with a fault all miss if and only if no declared key has a fault. -/
theorem references_miss_iff_undeclared (s : Snapshot) (qs : List Query) :
    let c := (Compilation.create s).after qs
    (∀ k t, c.store.find? k = some t →
      List.Forall₂ (fun base id => ∃ u, c.get? id = some u ∧ s.project.Refers base u)
        (s.project.content k).bases t.bases) ∧
    (∀ m k, m.sited.member.returnType = some k →
      ∃ t, (c.memberType m).1 = some t ∧ s.project.Refers k t) ∧
    (c.FaultsMiss ↔ ∀ k, s.project.declares k = true → k.fault? = none) := by
  intro c
  have h : c.store.Reached c.catalog := Compilation.reached_after_own s qs
  have hproject : c.snapshot.project = s.project := by
    rw [Compilation.snapshot_after, Compilation.snapshot_create]
  refine ⟨fun k t ht => ?_, fun m k hm => ?_, ?_⟩
  · exact (Compilation.reached_after s qs).consistent.forall₂_refers ht
  · exact hproject ▸ Compilation.refers_memberType h hm
  · exact hproject ▸ Compilation.faultsMiss_iff h

/-- A class whose name has a dot, and one that inherits from it and from a class without a name. -/
def Snapshot.dotted : Snapshot :=
  initial.updateAll [.addFile ⟨"a.cs",
    [⟨"", "A", .classType, [], [⟨"", "X.Y", 0⟩, ⟨"", "", 0⟩],
      [⟨.field, "x", some ⟨"", "X.Y", 0⟩, [], false⟩], false⟩,
    ⟨"", "X.Y", .classType, [], [], [], false⟩]⟩]

theorem references_miss_iff_undeclared_dotted :
    let c := (Compilation.create .dotted).after [.resolve ⟨"", "A", 0⟩]
    let p := Snapshot.dotted.project
    (∃ t, c.store.find? ⟨"", "A", 0⟩ = some t ∧
      List.Forall₂ (fun base id => ∃ u, c.get? id = some u ∧ p.Refers base u)
        [⟨"", "X.Y", 0⟩, ⟨"", "", 0⟩] t.bases) ∧
    p.declares ⟨"", "X.Y", 0⟩ = true ∧ p.declares ⟨"", "", 0⟩ = false ∧
    ∃ m, m.sited.member.returnType = some ⟨"", "X.Y", 0⟩ ∧
      ∃ t, (c.memberType m).1 = some t ∧ p.Refers ⟨"", "X.Y", 0⟩ t := by
  intro c p
  obtain ⟨hbases, hmembers, -⟩ := references_miss_iff_undeclared .dotted [.resolve ⟨"", "A", 0⟩]
  have hsome : (c.store.find? ⟨"", "A", 0⟩).isSome := by decide +kernel
  obtain ⟨t, ht⟩ := Option.isSome_iff_exists.1 hsome
  let m : ResolvedMember :=
    ⟨⟨⟨.field, "x", some ⟨"", "X.Y", 0⟩, [], false⟩, some "a.cs"⟩, 2⟩
  exact ⟨⟨t, ht, hbases _ t ht⟩, by decide +kernel, by decide +kernel, m, rfl, hmembers m _ rfl⟩

/-- The reference to the class whose name has a dot does not miss, although it has a fault. -/
theorem faulty_reference_hits :
    let c := (Compilation.create .dotted).after [.resolve ⟨"", "A", 0⟩]
    (∃ t u, c.store.find? ⟨"", "A", 0⟩ = some t ∧ t.bases.head? = some u.id ∧
      c.get? u.id = some u ∧ u.key = ⟨"", "X.Y", 0⟩ ∧ u.key.fault? = some (.qualifiedName "X.Y") ∧
      u.origin = .source ["a.cs"]) ∧
    ¬ c.FaultsMiss := by
  intro c
  constructor
  · let t : ResolvedType := ⟨2, ⟨"", "A", 0⟩, .declared ⟨.classType, .source [⟨0, 0⟩] ["a.cs"],
      [⟨⟨.field, "x", some ⟨"", "X.Y", 0⟩, [], false⟩, some "a.cs"⟩]⟩ [0, 1]⟩
    let u : ResolvedType :=
      ⟨0, ⟨"", "X.Y", 0⟩, .declared ⟨.classType, .source [⟨0, 1⟩] ["a.cs"], []⟩ []⟩
    have ht : c.store.find? ⟨"", "A", 0⟩ = some t := by decide +kernel
    have hu : c.get? 0 = some u := by decide +kernel
    exact ⟨t, u, ht, rfl, hu, rfl, by decide, rfl⟩
  · have hreached : c.store.Reached c.catalog := Compilation.reached_after_own ..
    rw [Compilation.faultsMiss_iff hreached]
    intro hsound
    exact absurd (hsound ⟨"", "X.Y", 0⟩ (by decide +kernel)) (by decide)

end TypeCatalog
