import Mathlib.Logic.Relation
import TypeCatalog.Proofs.Lookup

/-!
# The store between two queries

After every history the store is well formed: the table of settled keys and the arena tell the same
story, the base links of the arena lead from higher to lower numbers only, and the base types of a
settled key are settled with it. No look-up answers with a cycle placeholder.
-/

namespace TypeCatalog

theorem ResolvedType.origin_eq_unknown_iff (t : ResolvedType) (reason : UnknownReason) :
    t.origin = .unknown reason ↔ t.binding = .unknown reason := by
  obtain ⟨id, key, binding⟩ := t
  cases binding with
  | unknown reason' => simp [origin]
  | declared d bases =>
    simp only [origin, reduceCtorEq, iff_false]
    cases d.site <;> simp

theorem ResolvedType.origin_eq_cycle_iff (t : ResolvedType) :
    t.origin = .unknown .cycle ↔ t.binding = .unknown .cycle :=
  t.origin_eq_unknown_iff .cycle

namespace Store

/-- The type of one number has a base link to another number. -/
def Inherits (s : Store) (i b : TypeId) : Prop :=
  ∃ t, s.get? i = some t ∧ b ∈ t.bases

structure WellFormed (c : Catalog) (s : Store) : Prop where
  id_eq : ∀ i t, s.get? i = some t → t.id = i
  base_lt : ∀ i t, s.get? i = some t → ∀ b ∈ t.bases, b < i
  bases_nodup : ∀ i t, s.get? i = some t → t.bases.Nodup
  /-- Whatever cycles the declarations have, the base links of the arena have none. -/
  acyclic : ∀ i, ¬ Relation.TransGen s.Inherits i i
  owner_eq : ∀ i t, s.get? i = some t → ∀ m ∈ t.members, m.owner = i
  /-- A placeholder has no kind, no parts, no base links and no members. -/
  bare : ∀ i t, s.get? i = some t → t.isUnknown →
    t.kind? = none ∧ t.parts = [] ∧ t.bases = [] ∧ t.members = []
  /-- A settled key stands for a type of the arena that has this key and is no cycle placeholder. -/
  get?_of_settled : ∀ k t, s.find? k = some t →
    s.get? t.id = some t ∧ t.key = k ∧ t.origin ≠ .unknown .cycle
  settled_inj : ∀ j k t u, s.find? j = some t → s.find? k = some u → t.id = u.id → j = k
  /-- Every type of the arena that is no cycle placeholder is the one of its key. -/
  settled_of_get? : ∀ i t, s.get? i = some t → t.origin ≠ .unknown .cycle → s.find? t.key = some t
  /-- The declared base types of a settled key are settled, and so are the keys it is bound to. -/
  links_settled : ∀ k t, s.find? k = some t → ∀ base, c.LinksTo k base → (s.find? base).isSome
  bases_settled : ∀ k t, s.find? k = some t → ∀ b ∈ t.bases,
    ∃ u, s.get? b = some u ∧ (s.find? u.key).isSome

namespace Consistent

variable {c : Catalog} {s : Store}

theorem lt_of_transGen {o : Std.TreeSet TypeKey} (h : s.Consistent c o) {i b : TypeId}
    (hi : Relation.TransGen s.Inherits i b) : b < i := by
  induction hi with
  | single hb =>
    obtain ⟨t, ht, hb⟩ := hb
    exact h.base_lt ht _ hb
  | tail _ hb ih =>
    obtain ⟨t, ht, hb⟩ := hb
    exact Nat.lt_trans (h.base_lt ht _ hb) ih

theorem nodup_bases {o : Std.TreeSet TypeKey} (h : s.Consistent c o) {i : TypeId}
    {t : ResolvedType} (ht : s.get? i = some t) : t.bases.Nodup := by
  by_cases hb : t.binding = .unknown .cycle
  · simp [ResolvedType.bases, hb]
  · exact nodup_of_bound (h.bound (h.settled_iff.2 ⟨rfl, h.get?_id ht, hb⟩)).2

/-- While no key is open, every type of the arena has a settled key. -/
theorem isSome_find?_of_get? (h : s.Consistent c ∅) {i : TypeId} {t : ResolvedType}
    (ht : s.get? i = some t) : (s.find? t.key).isSome := by
  by_cases hb : t.binding = .unknown .cycle
  · exact (h.placeholder ht hb).1.resolve_left Std.TreeSet.not_mem_emptyc
  · rw [h.find?_of_mem_arena (mem_arena_iff.2 ⟨i, ht⟩) hb]
    rfl

/-- While no key is open, a link of any kind leads to a type with a settled key. -/
theorem isSome_find?_of_bound (h : s.Consistent c ∅) {k : TypeKey} {link : BaseLink} {id : TypeId}
    (hb : s.Bound c k link id) :
    (s.find? link.key).isSome ∧ ∃ t, s.get? id = some t ∧ t.key = link.key := by
  obtain ⟨t, ht, hk, -⟩ := hb
  exact ⟨hk ▸ h.isSome_find?_of_get? ht, t, ht, hk⟩

theorem wellFormed (h : s.Consistent c ∅) : s.WellFormed c where
  id_eq _ _ ht := h.id_eq ht
  base_lt _ _ ht := h.base_lt ht
  bases_nodup _ _ ht := h.nodup_bases ht
  acyclic _ hi := Nat.lt_irrefl _ (h.lt_of_transGen hi)
  owner_eq _ _ ht _ hm := (ResolvedType.owner_of_mem_members hm).trans (h.id_eq ht)
  bare _ t _ hu := by
    obtain ⟨id, key, binding⟩ := t
    cases binding with
    | unknown reason => exact ⟨rfl, rfl, rfl, rfl⟩
    | declared d bases => cases hu
  get?_of_settled _ t ht := by
    obtain ⟨hk, hget, hne⟩ := h.settled_iff.1 ht
    exact ⟨hget, hk, mt t.origin_eq_cycle_iff.1 hne⟩
  settled_inj j k t u ht hu hid := by
    obtain ⟨hj, htg, -⟩ := h.settled_iff.1 ht
    obtain ⟨hk, hug, -⟩ := h.settled_iff.1 hu
    rw [hid, hug] at htg
    cases htg
    exact hj.symm.trans hk
  settled_of_get? i t ht hne :=
    h.settled_iff.2 ⟨rfl, h.get?_id ht, mt t.origin_eq_cycle_iff.2 hne⟩
  links_settled k t ht base hl := by
    obtain ⟨link, hmem, rfl⟩ := List.mem_map.1 hl
    obtain ⟨id, -, hb⟩ := exists_bound_of_mem_links (h.bound ht).2 hmem
    exact (h.isSome_find?_of_bound hb).1
  bases_settled k t ht b hb := by
    obtain ⟨link, -, hbound⟩ := exists_bound_of_mem (h.bound ht).2 hb
    obtain ⟨hs, u, hu, hk⟩ := h.isSome_find?_of_bound hbound
    exact ⟨u, hu, hk ▸ hs⟩

/-- The keys that a settled key has links to are settled. -/
theorem isSome_of_linksTo (h : s.Consistent c ∅) {j k : TypeKey} (hs : (s.find? j).isSome)
    (hl : c.LinksTo j k) : (s.find? k).isSome := by
  obtain ⟨t, ht⟩ := Option.isSome_iff_exists.1 hs
  exact h.wellFormed.links_settled j t ht k hl

theorem isSome_of_reaches (h : s.Consistent c ∅) {j k : TypeKey} (hs : (s.find? j).isSome)
    (hr : c.Reaches j k) : (s.find? k).isSome := by
  induction hr with
  | refl => exact hs
  | tail _ hl ih => exact h.isSome_of_linksTo ih hl

/-- No look-up answers with a cycle placeholder. -/
theorem origin_resolve (h : s.Consistent c ∅) (k : TypeKey) :
    (s.resolve c k).1.origin ≠ .unknown .cycle := by
  have ha := h.resolve k
  exact mt (ResolvedType.origin_eq_cycle_iff _).1 (ha.consistent.settled_iff.1 ha.find?).2.2

end Consistent
end Store

/-- The store is well formed after every history, and no look-up that follows answers with a cycle
placeholder. -/
theorem wellFormed_after (s : Snapshot) (qs : List Query) :
    ((Compilation.create s).after qs).store.WellFormed (.ofProject s.project) ∧
      ∀ k, (((Compilation.create s).after qs).lookup k).1.origin ≠ .unknown .cycle := by
  have h := (Compilation.reached_after s qs).consistent
  refine ⟨h.wellFormed, fun k => ?_⟩
  have hk := h.origin_resolve k
  rwa [← Compilation.catalog_after s qs] at hk

end TypeCatalog
