import TypeCatalog.Proofs.Content
import TypeCatalog.Proofs.Correspondence
import TypeCatalog.Proofs.WellFormed

/-!
# Catalogs that agree on some keys

Two catalogs may have the same links from all keys of a set, which no link leaves and which has no
cycle, whatever they have elsewhere. In two stores, one of each catalog, the types of these keys are
then bound alike: their numbers correspond, and their closures have types of the same keys in the
same order. Both stores may be of one catalog, too.
-/

namespace TypeCatalog

/-- The keys, kinds and origins of the types that a type inherits from, without their numbers. -/
def Store.lineage (s : Store) (t : ResolvedType) : List (TypeKey × Option TypeKind × Origin) :=
  (s.closure t).map fun base => (base.key, base.kind?, base.origin)

namespace Catalog

structure AgreeOn (S : TypeKey → Prop) (c c' : Catalog) : Prop where
  closed : ∀ {k base}, S k → c.LinksTo k base → S base
  links : ∀ {k}, S k → (c'.links k).map BaseLink.key = (c.links k).map BaseLink.key
  acyclic : ∀ {k}, S k → ¬ Relation.TransGen c.LinksTo k k

namespace AgreeOn

variable {S : TypeKey → Prop} {c c' : Catalog} {k base j : TypeKey}

theorem linksTo_iff (h : AgreeOn S c c') (hk : S k) : c'.LinksTo k base ↔ c.LinksTo k base := by
  rw [LinksTo, LinksTo, h.links hk]

/-- What links of the second catalog lead to from the set is in it, and those of the first lead to
it too. -/
theorem reaches (h : AgreeOn S c c') (hk : S k) (hr : c'.Reaches k j) : S j ∧ c.Reaches k j := by
  induction hr with
  | refl => exact ⟨hk, .refl⟩
  | tail _ hl ih =>
    have hl := (h.linksTo_iff ih.1).1 hl
    exact ⟨h.closed ih.1 hl, ih.2.tail hl⟩

theorem not_reaches (h : AgreeOn S c c') (hk : S k) (hl : c.LinksTo k base) :
    ¬ c.Reaches base k :=
  fun hr => h.acyclic hk (.head' hl hr)

theorem symm (h : AgreeOn S c c') : AgreeOn S c' c where
  closed hk hl := h.closed hk ((h.linksTo_iff hk).1 hl)
  links hk := (h.links hk).symm
  acyclic hk hcycle := by
    obtain ⟨base, hl, hr⟩ := Relation.TransGen.head'_iff.1 hcycle
    have hl := (h.linksTo_iff hk).1 hl
    exact h.not_reaches hk hl (h.reaches (h.closed hk hl) hr).2

end AgreeOn
end Catalog

namespace Store

variable {S : TypeKey → Prop} {c c' : Catalog} {s s' : Store}

/-- The types of one key of the set in two stores. -/
structure Counterparts (S : TypeKey → Prop) (s s' : Store) (k : TypeKey) (t u : ResolvedType) :
    Prop where
  mem : S k
  left : s.find? k = some t
  right : s'.find? k = some u

def CounterpartNumbers (S : TypeKey → Prop) (s s' : Store) (i j : TypeId) : Prop :=
  ∃ k t u, Counterparts S s s' k t u ∧ t.id = i ∧ u.id = j

/-- The type with this number is the one that the key stands for. -/
def Stands (s : Store) (k : TypeKey) (id : TypeId) : Prop :=
  ∃ t, s.find? k = some t ∧ t.id = id

/-- A link that does not lead back is bound to the type that its key stands for. -/
theorem Consistent.stands_of_bound {o : Std.TreeSet TypeKey} (h : s.Consistent c o) {k : TypeKey}
    {link : BaseLink} (hl : ¬ c.Reaches link.key k) {id : TypeId} (hb : s.Bound c k link id) :
    s.Stands link.key id := by
  obtain ⟨t, ht, -, hfind | ⟨-, hr⟩⟩ := hb
  · exact ⟨t, hfind, h.id_eq ht⟩
  · exact absurd hr hl

theorem Consistent.forall₂_stands (hc : c.AgreeOn S c') (h : s.Consistent c ∅) {k : TypeKey}
    (hk : S k) {t : ResolvedType} (ht : s.find? k = some t) :
    List.Forall₂ s.Stands ((c.links k).map BaseLink.key) t.bases := by
  rw [List.forall₂_map_left_iff]
  refine List.forall₂_iff_zip.2 ⟨(h.bound ht).2.length_eq, fun {link id} hmem => ?_⟩
  have hl : c.LinksTo k link.key := List.mem_map_of_mem (List.of_mem_zip hmem).1
  exact h.stands_of_bound (hc.not_reaches hk hl) ((List.forall₂_iff_zip.1 (h.bound ht).2).2 hmem)

/-- What stands for the same keys in two stores are counterparts. -/
theorem forall₂_counterpartNumbers {ks : List TypeKey} (hks : ∀ k ∈ ks, S k)
    {bases bases' : List TypeId} (hb : List.Forall₂ s.Stands ks bases)
    (hb' : List.Forall₂ s'.Stands ks bases') :
    List.Forall₂ (CounterpartNumbers S s s') bases bases' := by
  induction hb generalizing bases' with
  | nil =>
    cases hb'
    exact .nil
  | @cons k id ks bases hid _ ih =>
    obtain _ | ⟨hid', hb'⟩ := hb'
    obtain ⟨t, ht, hid⟩ := hid
    obtain ⟨u, hu, hid'⟩ := hid'
    exact .cons ⟨k, t, u, ⟨hks k List.mem_cons_self, ht, hu⟩, hid, hid'⟩
      (ih (fun k hk => hks k (List.mem_cons_of_mem _ hk)) hb')

theorem CounterpartNumbers.eq_iff (h : s.Consistent c ∅) (h' : s'.Consistent c' ∅) {i j : TypeId}
    (hij : CounterpartNumbers S s s' i j) {k : TypeKey} {t u : ResolvedType}
    (ht : s.find? k = some t) (hu : s'.find? k = some u) : i = t.id ↔ j = u.id := by
  obtain ⟨k', t', u', hp, rfl, rfl⟩ := hij
  constructor
  · intro hid
    obtain rfl := h.wellFormed.settled_inj k' k t' t hp.left ht hid
    rw [Option.some.inj (hp.right.symm.trans hu)]
  · intro hid
    obtain rfl := h'.wellFormed.settled_inj k' k u' u hp.right hu hid
    rw [Option.some.inj (hp.left.symm.trans ht)]

section Agree

variable (hc : c.AgreeOn S c') (h : s.Consistent c ∅) (h' : s'.Consistent c' ∅)
include hc h h'

theorem Counterparts.paired {k : TypeKey} {t u : ResolvedType} (hp : Counterparts S s s' k t u) :
    Paired (CounterpartNumbers S s s') s s' t u where
  ids := ⟨k, t, u, hp, rfl, rfl⟩
  left := (h.settled_iff.1 hp.left).2.1
  right := (h'.settled_iff.1 hp.right).2.1
  bases := by
    have hks : ∀ base ∈ (c.links k).map BaseLink.key, S base := fun _ hl => hc.closed hp.mem hl
    have hright := h'.forall₂_stands hc.symm hp.mem hp.right
    rw [hc.links hp.mem] at hright
    exact forall₂_counterpartNumbers hks (h.forall₂_stands hc hp.mem hp.left) hright

/-- The numbers of counterparts correspond. -/
theorem corresponds_counterpartNumbers : Corresponds (CounterpartNumbers S s s') s s' where
  unique := by
    constructor
    · rintro i j i' hi ⟨k, t, u, hp, rfl, rfl⟩
      exact (hi.eq_iff h h' hp.left hp.right).2 rfl
    · rintro i j j' ⟨k, t, u, hp, rfl, rfl⟩ hj'
      exact ((hj'.eq_iff h h' hp.left hp.right).1 rfl).symm
  paired := by
    rintro i j ⟨k, t, u, hp, rfl, rfl⟩
    exact ⟨t, u, rfl, rfl, hp.paired hc h h'⟩

omit hc in
theorem counterparts_of_paired {t u : ResolvedType}
    (hp : Paired (CounterpartNumbers S s s') s s' t u) : ∃ k, Counterparts S s s' k t u := by
  obtain ⟨k, t', u', hcounter, ht, hu⟩ := hp.ids
  have htget := (h.settled_iff.1 hcounter.left).2.1
  have huget := (h'.settled_iff.1 hcounter.right).2.1
  rw [ht, hp.left] at htget
  rw [hu, hp.right] at huget
  cases htget
  cases huget
  exact ⟨k, hcounter⟩

/-- Counterparts derive from types of the same keys. -/
theorem Counterparts.derives_eq {k : TypeKey} {t u : ResolvedType}
    (hp : Counterparts S s s' k t u) {j : TypeKey} {a b : ResolvedType}
    (ha : s.find? j = some a) (hb : s'.find? j = some b) : s.derives t a = s'.derives u b :=
  (corresponds_counterpartNumbers hc h h').derives_eq (hp.paired hc h h')
    fun _ _ hij => hij.eq_iff h h' ha hb

end Agree

/-- Counterparts inherit alike if the keys of the set have the same kinds and origins. -/
theorem Counterparts.lineage_eq {p p' : Project}
    (hc : (Catalog.ofProject p).AgreeOn S (.ofProject p')) (h : s.Consistent (.ofProject p) ∅)
    (h' : s'.Consistent (.ofProject p') ∅)
    (hcontent : ∀ k, S k → (p'.content k).kind? = (p.content k).kind? ∧
      (p'.content k).origin = (p.content k).origin)
    {k : TypeKey} {t u : ResolvedType} (hp : Counterparts S s s' k t u) :
    s.lineage t = s'.lineage u := by
  have hclosures := (corresponds_counterpartNumbers hc h h').forall₂_closure (hp.paired hc h h')
  refine map_eq_map_of_forall₂ hclosures fun v w hvw => ?_
  obtain ⟨j, hj⟩ := counterparts_of_paired h h' hvw
  obtain ⟨hvk, hvd⟩ := h.depicts hj.left
  obtain ⟨hwk, hwd⟩ := h'.depicts hj.right
  obtain ⟨hkind, horigin⟩ := hcontent j hj.mem
  rw [hvk, hwk, hvd.kind, hwd.kind, hvd.origin, hwd.origin, hkind, horigin]

end Store

namespace Compilation

/-- What a compilation tells of the types that a key inherits from when it looks it up next. -/
def lineage (c : Compilation) (k : TypeKey) : List (TypeKey × Option TypeKind × Origin) :=
  (c.lookup k).2.store.lineage (c.lookup k).1

/-- A key of the set inherits the same in all histories of both projects. -/
theorem lineage_after_eq {S : TypeKey → Prop} {s s' : Snapshot}
    (hc : (Catalog.ofProject s.project).AgreeOn S (.ofProject s'.project))
    (hcontent : ∀ k, S k → (s'.project.content k).kind? = (s.project.content k).kind? ∧
      (s'.project.content k).origin = (s.project.content k).origin)
    {k : TypeKey} (hk : S k) (qs qs' : List Query) :
    ((create s).after qs).lineage k = ((create s').after qs').lineage k := by
  have ha := (reached_after s qs).consistent.resolve k
  have ha' := (reached_after s' qs').consistent.resolve k
  have hp : Store.Counterparts S _ _ k _ _ := ⟨hk, ha.find?, ha'.find?⟩
  have heq := hp.lineage_eq hc ha.consistent ha'.consistent hcontent
  rw [← catalog_after s qs, ← catalog_after s' qs'] at heq
  exact heq

end Compilation
end TypeCatalog
