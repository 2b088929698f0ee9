import Mathlib.Data.List.Forall2
import Mathlib.Data.List.Nodup
import TypeCatalog.Proofs.Growth
import TypeCatalog.Proofs.Links

/-!
# Consistent stores

A store is consistent with a catalog while the keys of a set are open: numbers are places, base
types come first, the settled types are all types that are no cycle placeholders, each settled type
is bound as its key is declared, and each placeholder stands for a key that is open or settled and
lies on a cycle of links. A consistent store stays so when a placeholder is added, and when an open
key is settled whose links are bound.
-/

namespace TypeCatalog.Store

/-- How a link of a type is bound. A placeholder takes the place of a key that leads back. -/
def Bound (c : Catalog) (s : Store) (subject : TypeKey) (link : BaseLink) (id : TypeId) : Prop :=
  ∃ t, s.get? id = some t ∧ t.key = link.key ∧
    (s.find? link.key = some t ∨ t.binding = .unknown .cycle ∧ c.Reaches link.key subject)

structure Consistent (c : Catalog) (o : Std.TreeSet TypeKey) (s : Store) : Prop where
  id_eq : ∀ {i t}, s.get? i = some t → t.id = i
  base_lt : ∀ {i t}, s.get? i = some t → ∀ b ∈ t.bases, b < i
  settled_iff : ∀ {k t}, s.find? k = some t ↔
    t.key = k ∧ s.get? t.id = some t ∧ t.binding ≠ .unknown .cycle
  bound : ∀ {k t}, s.find? k = some t →
    t.binding = c.binding k t.bases ∧ List.Forall₂ (s.Bound c k) (c.links k) t.bases
  placeholder : ∀ {i t}, s.get? i = some t → t.binding = .unknown .cycle →
    (t.key ∈ o ∨ (s.find? t.key).isSome) ∧ ∃ k, c.LinksTo k t.key ∧ c.Reaches t.key k

theorem Bound.mono {c : Catalog} {s s' : Store} (hg : s.Grows s') {k : TypeKey} {link : BaseLink}
    {id : TypeId} (h : s.Bound c k link id) : s'.Bound c k link id := by
  obtain ⟨t, ht, hk, hb⟩ := h
  exact ⟨t, hg.get? ht, hk, hb.imp_left hg.find?⟩

theorem Bound.lt_size {c : Catalog} {s : Store} {k : TypeKey} {link : BaseLink} {id : TypeId}
    (h : s.Bound c k link id) : id < s.arena.size := by
  obtain ⟨t, ht, -, -⟩ := h
  exact lt_size_of_get? ht

theorem forall₂_bound_mono {c : Catalog} {s s' : Store} (hg : s.Grows s') {k : TypeKey}
    {links : List BaseLink} {bases : List TypeId} (h : List.Forall₂ (s.Bound c k) links bases) :
    List.Forall₂ (s'.Bound c k) links bases :=
  h.imp fun _ _ => Bound.mono hg

theorem exists_bound_of_mem {c : Catalog} {s : Store} {k : TypeKey} {links : List BaseLink}
    {bases : List TypeId} (h : List.Forall₂ (s.Bound c k) links bases) {b : TypeId}
    (hb : b ∈ bases) : ∃ link, (link, b) ∈ links.zip bases ∧ s.Bound c k link b := by
  induction h with
  | nil => cases hb
  | @cons link id links bases hl _ ih =>
    rcases List.mem_cons.1 hb with rfl | hb
    · exact ⟨link, List.mem_cons_self, hl⟩
    · obtain ⟨link', hm, hl'⟩ := ih hb
      exact ⟨link', List.mem_cons_of_mem _ hm, hl'⟩

theorem exists_bound_of_mem_links {c : Catalog} {s : Store} {k : TypeKey} {links : List BaseLink}
    {bases : List TypeId} (h : List.Forall₂ (s.Bound c k) links bases) {link : BaseLink}
    (hl : link ∈ links) : ∃ b, (link, b) ∈ links.zip bases ∧ s.Bound c k link b := by
  induction h with
  | nil => cases hl
  | @cons link' id links bases hb _ ih =>
    rcases List.mem_cons.1 hl with rfl | hl
    · exact ⟨id, List.mem_cons_self, hb⟩
    · obtain ⟨b, hm, hb'⟩ := ih hl
      exact ⟨b, List.mem_cons_of_mem _ hm, hb'⟩

/-- The types of the links have the keys of the links. -/
theorem map_key_of_bound {c : Catalog} {s : Store} {k : TypeKey} {links : List BaseLink}
    {bases : List TypeId} (h : List.Forall₂ (s.Bound c k) links bases) :
    bases.map (fun id => (s.get? id).map ResolvedType.key) =
      (links.map BaseLink.key).map some := by
  induction h with
  | nil => rfl
  | cons hl _ ih =>
    obtain ⟨t, ht, hk, -⟩ := hl
    simp [ht, hk, ih]

/-- No type is bound twice, because no key is linked twice. -/
theorem nodup_of_bound {c : Catalog} {s : Store} {k : TypeKey} {bases : List TypeId}
    (h : List.Forall₂ (s.Bound c k) (c.links k) bases) : bases.Nodup := by
  have hn : (bases.map (fun id => (s.get? id).map ResolvedType.key)).Nodup := by
    rw [map_key_of_bound h]
    exact (c.nodup_links k).map fun _ _ => Option.some.inj
  exact hn.of_map _

/-- A type has the bases that its links were bound to. A key without an outline has no links. -/
theorem bases_binding {c : Catalog} {k : TypeKey} {R : BaseLink → TypeId → Prop}
    {bases : List TypeId} (h : List.Forall₂ R (c.links k) bases) (id : TypeId) :
    ResolvedType.bases ⟨id, k, c.binding k bases⟩ = bases := by
  unfold Catalog.binding
  cases ho : c.outline? k with
  | some o => rfl
  | none =>
    rw [Catalog.links_of_outline?_eq_none ho] at h
    exact (List.forall₂_nil_left_iff.1 h).symm

theorem binding_ne_cycle (c : Catalog) (k : TypeKey) (bases : List TypeId) :
    c.binding k bases ≠ .unknown .cycle := by
  unfold Catalog.binding
  cases c.outline? k <;> simp

namespace Consistent

variable {c : Catalog} {o : Std.TreeSet TypeKey} {s : Store}

theorem empty (c : Catalog) : Consistent c ∅ {} where
  id_eq h := by simp [get?] at h
  base_lt h := by simp [get?] at h
  settled_iff := by simp [get?, find?]
  bound h := by simp [find?] at h
  placeholder h := by simp [get?] at h

theorem bound_of_find? (h : Consistent c o s) {k : TypeKey} {link : BaseLink} {t : ResolvedType}
    (ht : s.find? link.key = some t) : s.Bound c k link t.id := by
  obtain ⟨hk, hget, -⟩ := h.settled_iff.1 ht
  exact ⟨t, hget, hk, .inl ht⟩

theorem get?_id (h : Consistent c o s) {i : TypeId} {t : ResolvedType} (ht : s.get? i = some t) :
    s.get? t.id = some t := by
  rwa [h.id_eq ht]

theorem get?_of_mem_arena (h : Consistent c o s) {t : ResolvedType} (ht : t ∈ s.arena.toList) :
    s.get? t.id = some t := by
  obtain ⟨i, hi⟩ := mem_arena_iff.1 ht
  exact h.get?_id hi

/-- A type of the arena that is no cycle placeholder is the one its key stands for. -/
theorem find?_of_mem_arena (h : Consistent c o s) {t : ResolvedType} (ht : t ∈ s.arena.toList)
    (hne : t.binding ≠ .unknown .cycle) : s.find? t.key = some t :=
  h.settled_iff.2 ⟨rfl, h.get?_of_mem_arena ht, hne⟩

theorem nodup_ids (h : Consistent c o s) : (s.arena.toList.map ResolvedType.id).Nodup := by
  have hids : s.arena.toList.map ResolvedType.id = List.range s.arena.size := by
    refine List.ext_getElem (by simp) fun i hi _ => ?_
    have hi : i < s.arena.size := by simpa using hi
    have hget : s.get? i = some s.arena[i] := Array.getElem?_eq_getElem hi
    simpa using h.id_eq hget
  rw [hids]
  exact List.nodup_range

/-- Reports, counts and further open keys leave a store consistent. -/
theorem congr (h : Consistent c o s) {o' : Std.TreeSet TypeKey} {s' : Store}
    (ho : ∀ k ∈ o, k ∈ o') (ha : s'.arena = s.arena) (hf : s'.find? = s.find?) :
    Consistent c o' s' := by
  have hget : s'.get? = s.get? := funext (get?_congr ha)
  have hbound : s'.Bound c = s.Bound c := by
    funext k link id
    simp only [Bound, hget, hf]
  constructor
  case id_eq =>
    rw [hget]
    exact h.id_eq
  case base_lt =>
    rw [hget]
    exact h.base_lt
  case settled_iff =>
    rw [hget, hf]
    exact h.settled_iff
  case bound =>
    rw [hf, hbound]
    exact h.bound
  case placeholder =>
    rw [hget, hf]
    intro i t ht hb
    exact ⟨(h.placeholder ht hb).1.imp_left (ho _), (h.placeholder ht hb).2⟩

/-- A placeholder is added for an open key that leads back to a key with a link to it. -/
theorem push_placeholder (h : Consistent c o s) {j k : TypeKey} (hk : k ∈ o) (hl : c.LinksTo j k)
    (hr : c.Reaches k j) : Consistent c o (s.push (s.next k (.unknown .cycle))) := by
  have hg := Grows.push s (s.next k (.unknown .cycle))
  constructor
  case id_eq =>
    intro i t ht
    obtain ⟨rfl, rfl⟩ | ht := eq_or_get?_of_push ht
    · rfl
    · exact h.id_eq ht
  case base_lt =>
    intro i t ht b hb
    obtain ⟨rfl, rfl⟩ | ht := eq_or_get?_of_push ht
    · cases hb
    · exact h.base_lt ht b hb
  case settled_iff =>
    intro k' t
    constructor
    · intro ht
      obtain ⟨hkey, hget, hne⟩ := h.settled_iff.1 ht
      exact ⟨hkey, hg.get? hget, hne⟩
    · rintro ⟨hkey, hget, hne⟩
      obtain ⟨-, rfl⟩ | hget := eq_or_get?_of_push hget
      · exact absurd rfl hne
      · exact h.settled_iff.2 ⟨hkey, hget, hne⟩
  case bound =>
    intro k' t ht
    exact ⟨(h.bound ht).1, forall₂_bound_mono hg (h.bound ht).2⟩
  case placeholder =>
    intro i t ht hb
    obtain ⟨-, rfl⟩ | ht := eq_or_get?_of_push ht
    · exact ⟨.inl hk, j, hl, hr⟩
    · exact h.placeholder ht hb

/-- An open key is settled once its links are bound. -/
theorem settle_next (h : Consistent c o s) {k : TypeKey} (hk : s.find? k = none)
    {bases : List TypeId} (hb : List.Forall₂ (s.Bound c k) (c.links k) bases) :
    Consistent c (o.erase k) ((s.push (s.next k (c.binding k bases))).settle
      (s.next k (c.binding k bases))) := by
  generalize hu : s.next k (c.binding k bases) = u
  have hid : u.id = s.arena.size := by rw [← hu, id_next]
  have hkey : u.key = k := by rw [← hu, key_next]
  have hbinding : u.binding = c.binding k bases := by rw [← hu, binding_next]
  have hbases : u.bases = bases := by rw [← hu]; exact bases_binding hb _
  have hg : s.Grows ((s.push u).settle u) :=
    (Grows.push s u).trans (.settle (by rw [hkey]; exact hk))
  have hget : ((s.push u).settle u).get? u.id = some u := by
    rw [get?_congr (arena_settle _ _), get?_push, if_pos hid]
  have hold : ∀ {i t}, ((s.push u).settle u).get? i = some t →
      i = u.id ∧ t = u ∨ s.get? i = some t :=
    fun ht => hid ▸ eq_or_get?_of_push ht
  have hfind : ((s.push u).settle u).find? k = some u := by
    rw [find?_settle, if_pos hkey]
  have hnew : ∀ {j t}, ((s.push u).settle u).find? j = some t →
      j = k ∧ t = u ∨ s.find? j = some t := by
    intro j t ht
    rw [find?_settle, hkey] at ht
    split at ht
    · rename_i hj
      exact .inl ⟨hj.symm, (Option.some.inj ht).symm⟩
    · exact .inr ht
  constructor
  case id_eq =>
    intro i t ht
    obtain ⟨rfl, rfl⟩ | ht := hold ht
    · rfl
    · exact h.id_eq ht
  case base_lt =>
    intro i t ht b hmem
    obtain ⟨rfl, rfl⟩ | ht := hold ht
    · obtain ⟨link, -, hl⟩ := exists_bound_of_mem hb (hbases ▸ hmem)
      exact hid ▸ hl.lt_size
    · exact h.base_lt ht b hmem
  case settled_iff =>
    intro j t
    constructor
    · intro ht
      obtain ⟨rfl, rfl⟩ | ht := hnew ht
      · exact ⟨hkey, hget, hbinding ▸ binding_ne_cycle c j bases⟩
      · obtain ⟨htk, htg, hne⟩ := h.settled_iff.1 ht
        exact ⟨htk, hg.get? htg, hne⟩
    · rintro ⟨htk, htg, hne⟩
      obtain ⟨-, rfl⟩ | htg := hold htg
      · rwa [← htk, hkey]
      · exact hg.find? (h.settled_iff.2 ⟨htk, htg, hne⟩)
  case bound =>
    intro j t ht
    obtain ⟨rfl, rfl⟩ | ht := hnew ht
    · rw [hbases]
      exact ⟨hbinding, forall₂_bound_mono hg hb⟩
    · obtain ⟨htb, hts⟩ := h.bound ht
      exact ⟨htb, forall₂_bound_mono hg hts⟩
  case placeholder =>
    intro i t ht hcycle
    obtain ⟨-, rfl⟩ | ht := hold ht
    · exact absurd (hbinding ▸ hcycle) (binding_ne_cycle c k bases)
    · obtain ⟨hused, hloop⟩ := h.placeholder ht hcycle
      refine ⟨?_, hloop⟩
      by_cases hj : t.key = k
      · rw [hj, hfind]
        exact .inr rfl
      · rw [Std.TreeSet.mem_erase, ne_eq, Std.LawfulEqOrd.compare_eq_iff_eq]
        exact hused.imp (fun hm => ⟨Ne.symm hj, hm⟩) hg.isSome_find?

end Consistent
end TypeCatalog.Store
