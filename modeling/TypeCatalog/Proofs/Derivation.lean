import TypeCatalog.Proofs.Independence

/-!
# Derivation

A walk finds exactly the numbers that base links lead to from its queue past the numbers it has met.
Since base links lead from higher to lower numbers only, a type never meets itself: derivation is a
strict order on the types of the arena, whatever cycles the declarations have. Of a key that leads
to no cycle, each link is bound to the type of the key that it names, so its type derives from the
types of exactly those keys that declared links lead to.
-/

namespace TypeCatalog

namespace Store

/-- A number that a walk comes to: links lead to it from a number of the queue, past all numbers
that the walk has met. -/
def Ahead (s : Store) (met : Std.TreeSet TypeId) (queue : List TypeId) (i : TypeId) : Prop :=
  ∃ first ∈ queue, first ∉ met ∧
    Relation.ReflTransGen (fun a b => s.Inherits a b ∧ b ∉ met) first i

section Walk

variable {s : Store} {met : Std.TreeSet TypeId} {queue : List TypeId} {id i : TypeId}

theorem inherits_iff {b : TypeId} : s.Inherits i b ↔ b ∈ s.basesAt i := by
  rw [Inherits, basesAt]
  cases s.get? i <;> simp

theorem basesAt_of_get? {t : ResolvedType} (h : s.get? i = some t) : s.basesAt i = t.bases := by
  simp [basesAt, h]

theorem not_ahead_nil : ¬ s.Ahead met [] i := by
  rintro ⟨first, hfirst, -⟩
  cases hfirst

theorem ahead_cons_of_met (h : id ∈ met) : s.Ahead met (id :: queue) i ↔ s.Ahead met queue i := by
  constructor
  · rintro ⟨first, hfirst, hmet, hp⟩
    rcases List.mem_cons.1 hfirst with rfl | hfirst
    · exact absurd h hmet
    · exact ⟨first, hfirst, hmet, hp⟩
  · rintro ⟨first, hfirst, hmet, hp⟩
    exact ⟨first, List.mem_cons_of_mem _ hfirst, hmet, hp⟩

theorem not_mem_insert_iff {b : TypeId} : b ∉ met.insert id ↔ b ≠ id ∧ b ∉ met := by
  rw [Std.TreeSet.mem_insert, Std.LawfulEqOrd.compare_eq_iff_eq, not_or, ne_comm]

/-- A number that is met for the first time is passed, and its links are what is ahead instead. -/
theorem ahead_cons (h : id ∉ met) : s.Ahead met (id :: queue) i ↔
    i = id ∨ s.Ahead (met.insert id) (queue ++ s.basesAt id) i := by
  constructor
  · rintro ⟨first, hfirst, hmet, hp⟩
    -- what follows the last visit of the number on the way avoids it
    induction hp with
    | refl =>
      by_cases hid : first = id
      · exact .inl hid
      · have hfirst := (List.mem_cons.1 hfirst).resolve_left hid
        exact .inr ⟨first, List.mem_append_left _ hfirst, not_mem_insert_iff.2 ⟨hid, hmet⟩, .refl⟩
    | @tail a b _ hab ih =>
      by_cases hid : b = id
      · exact .inl hid
      · have hb : b ∉ met.insert id := not_mem_insert_iff.2 ⟨hid, hab.2⟩
        rcases ih with rfl | ⟨first, hfirst, hmet, hp⟩
        · exact .inr ⟨b, List.mem_append_right _ (inherits_iff.1 hab.1), hb, .refl⟩
        · exact .inr ⟨first, hfirst, hmet, hp.tail ⟨hab.1, hb⟩⟩
  · rintro (rfl | ⟨first, hfirst, hmet, hp⟩)
    · exact ⟨i, List.mem_cons_self, h, .refl⟩
    · have hmet := (not_mem_insert_iff.1 hmet).2
      have hp : Relation.ReflTransGen (fun a b => s.Inherits a b ∧ b ∉ met) first i :=
        Relation.ReflTransGen.mono (fun a b hab => ⟨hab.1, (not_mem_insert_iff.1 hab.2).2⟩) _ _ hp
      rcases List.mem_append.1 hfirst with hfirst | hfirst
      · exact ⟨first, List.mem_cons_of_mem _ hfirst, hmet, hp⟩
      · exact ⟨id, List.mem_cons_self, h, hp.head ⟨inherits_iff.2 hfirst, hmet⟩⟩

/-- A walk adds the types of all numbers that are ahead of it, and nothing else. -/
theorem mem_walk_iff {found : Array ResolvedType} {u : ResolvedType} :
    u ∈ (s.walk met found queue).toList ↔
      u ∈ found.toList ∨ ∃ i, s.Ahead met queue i ∧ s.get? i = some u := by
  induction met, found, queue using walk.induct s with
  | case1 met found => simp [walk, not_ahead_nil]
  | case2 met found id queue hmet ih =>
    rw [walk_of_met hmet, ih]
    simp only [ahead_cons_of_met (Std.TreeSet.mem_iff_contains.2 hmet)]
  | case3 met found id queue hmet hnone ih =>
    have hbases : s.basesAt id = [] := by simp [basesAt, hnone]
    rw [walk_of_get?_eq_none hmet hnone, ih]
    simp only [ahead_cons (mt Std.TreeSet.mem_iff_contains.1 hmet), hbases, List.append_nil]
    refine or_congr_right (exists_congr fun i => and_congr_left fun hi => ?_)
    have hne : i ≠ id := fun he => by simp [he, hnone] at hi
    exact (or_iff_right hne).symm
  | case4 met found id queue hmet t ht ih =>
    rw [walk_of_get? hmet ht, ih]
    simp only [ahead_cons (mt Std.TreeSet.mem_iff_contains.1 hmet), basesAt_of_get? ht,
      Array.toList_push, List.mem_append, List.mem_singleton, or_and_right, exists_or,
      exists_eq_left, ht, Option.some.injEq, or_assoc, @eq_comm _ t u]

end Walk

namespace Consistent

variable {c : Catalog} {o : Std.TreeSet TypeKey} {s : Store}

/-- Links never lead back, so a way that begins at a number avoids it from then on. -/
theorem ahead_of_inherits (h : s.Consistent c o) {i b j : TypeId} (hb : s.Inherits i b)
    (hp : Relation.ReflTransGen s.Inherits b j) :
    s.Ahead (Std.TreeSet.insert ∅ i) (s.basesAt i) j := by
  have havoids : ∀ {a}, Relation.TransGen s.Inherits i a → a ∉ Std.TreeSet.insert ∅ i :=
    fun ha => not_mem_insert_iff.2 ⟨(h.lt_of_transGen ha).ne, Std.TreeSet.not_mem_emptyc⟩
  refine ⟨b, inherits_iff.1 hb, havoids (.single hb), ?_⟩
  induction hp with
  | refl => exact .refl
  | tail hp hl ih => exact ih.tail ⟨hl, havoids (.tail' (.head hb hp) hl)⟩

/-- A type derives from the types that its base links lead to. -/
theorem derives_iff (h : s.Consistent c o) {t u : ResolvedType} (ht : s.get? t.id = some t)
    (hu : s.get? u.id = some u) : s.derives t u ↔ Relation.TransGen s.Inherits t.id u.id := by
  have hbases := basesAt_of_get? ht
  rw [derives, List.any_eq_true, Relation.TransGen.head'_iff]
  constructor
  · rintro ⟨v, hv, hid⟩
    obtain ⟨i, ⟨b, hb, -, hp⟩, hi⟩ := (mem_walk_iff.1 hv).resolve_left (by simp)
    obtain rfl : u.id = i := (of_decide_eq_true hid).symm.trans (h.id_eq hi)
    have hp := Relation.ReflTransGen.mono (fun _ _ hab => hab.1) _ _ hp
    exact ⟨b, inherits_iff.2 (hbases ▸ hb), hp⟩
  · rintro ⟨b, hb, hp⟩
    have hahead := h.ahead_of_inherits hb hp
    rw [hbases] at hahead
    exact ⟨u, mem_walk_iff.2 (.inr ⟨u.id, hahead, hu⟩), decide_eq_true rfl⟩

theorem not_derives_self (h : s.Consistent c o) {t : ResolvedType} (ht : s.get? t.id = some t) :
    ¬ s.derives t t :=
  fun hd => Nat.lt_irrefl _ (h.lt_of_transGen ((h.derives_iff ht ht).1 hd))

theorem derives_trans (h : s.Consistent c o) {t u v : ResolvedType} (ht : s.get? t.id = some t)
    (hu : s.get? u.id = some u) (hv : s.get? v.id = some v) (htu : s.derives t u)
    (huv : s.derives u v) : s.derives t v :=
  (h.derives_iff ht hv).2 (((h.derives_iff ht hu).1 htu).trans ((h.derives_iff hu hv).1 huv))

/-- Each link of a key that leads to no cycle is bound to the type of the key it names. -/
theorem stands_of_avoidsCycles (h : s.Consistent c o) {k : TypeKey} (hk : c.AvoidsCycles k)
    {link : BaseLink} (hl : link ∈ c.links k) {id : TypeId} (hb : s.Bound c k link id) :
    s.Stands link.key id :=
  h.stands_of_bound (Catalog.agreeOn_avoidsCycles.not_reaches hk (List.mem_map_of_mem hl)) hb

theorem exists_inherits_of_linksTo (h : s.Consistent c o) {k base : TypeKey}
    (hk : c.AvoidsCycles k) {t : ResolvedType} (ht : s.find? k = some t) (hl : c.LinksTo k base) :
    ∃ u, s.find? base = some u ∧ s.Inherits t.id u.id := by
  obtain ⟨link, hmem, rfl⟩ := List.mem_map.1 hl
  obtain ⟨id, hzip, hb⟩ := exists_bound_of_mem_links (h.bound ht).2 hmem
  obtain ⟨u, hu, rfl⟩ := h.stands_of_avoidsCycles hk hmem hb
  exact ⟨u, hu, t, (h.settled_iff.1 ht).2.1, (List.of_mem_zip hzip).2⟩

theorem exists_linksTo_of_inherits (h : s.Consistent c o) {k : TypeKey} (hk : c.AvoidsCycles k)
    {t : ResolvedType} (ht : s.find? k = some t) {id : TypeId} (hi : s.Inherits t.id id) :
    ∃ base u, c.LinksTo k base ∧ s.find? base = some u ∧ u.id = id := by
  obtain ⟨t', ht', hid⟩ := hi
  obtain rfl : t' = t := Option.some.inj (ht'.symm.trans (h.settled_iff.1 ht).2.1)
  obtain ⟨link, hzip, hb⟩ := exists_bound_of_mem (h.bound ht).2 hid
  have hmem := (List.of_mem_zip hzip).1
  obtain ⟨u, hu, hid⟩ := h.stands_of_avoidsCycles hk hmem hb
  exact ⟨link.key, u, List.mem_map_of_mem hmem, hu, hid⟩

/-- The type of a key that leads to no cycle derives from the types of the keys that links lead to
from it. -/
theorem derives_iff_transGen_linksTo (h : s.Consistent c ∅) {k j : TypeKey}
    (hk : c.AvoidsCycles k) {t u : ResolvedType} (ht : s.find? k = some t)
    (hu : s.find? j = some u) : s.derives t u ↔ Relation.TransGen c.LinksTo k j := by
  rw [h.derives_iff (h.settled_iff.1 ht).2.1 (h.settled_iff.1 hu).2.1]
  have havoids : ∀ {base}, Relation.TransGen c.LinksTo k base → c.AvoidsCycles base :=
    fun hp i hi => hk i (hp.to_reflTransGen.trans hi)
  constructor
  · have hnumbers : ∀ {id}, Relation.TransGen s.Inherits t.id id →
        ∃ base v, Relation.TransGen c.LinksTo k base ∧ s.find? base = some v ∧ v.id = id := by
      intro id hp
      induction hp with
      | single hi =>
        obtain ⟨base, v, hl, hv, hid⟩ := h.exists_linksTo_of_inherits hk ht hi
        exact ⟨base, v, .single hl, hv, hid⟩
      | tail _ hi ih =>
        obtain ⟨mid, w, hp, hw, rfl⟩ := ih
        obtain ⟨base, v, hl, hv, hid⟩ := h.exists_linksTo_of_inherits (havoids hp) hw hi
        exact ⟨base, v, hp.tail hl, hv, hid⟩
    intro hp
    obtain ⟨base, v, hlinks, hv, hid⟩ := hnumbers hp
    rwa [← h.wellFormed.settled_inj base j v u hv hu hid]
  · have hkeys : ∀ {base}, Relation.TransGen c.LinksTo k base →
        ∃ v, s.find? base = some v ∧ Relation.TransGen s.Inherits t.id v.id := by
      intro base hp
      induction hp with
      | single hl =>
        obtain ⟨v, hv, hi⟩ := h.exists_inherits_of_linksTo hk ht hl
        exact ⟨v, hv, .single hi⟩
      | tail hp hl ih =>
        obtain ⟨w, hw, hnumbers⟩ := ih
        obtain ⟨v, hv, hi⟩ := h.exists_inherits_of_linksTo (havoids hp) hw hl
        exact ⟨v, hv, hnumbers.tail hi⟩
    intro hp
    obtain ⟨v, hv, hnumbers⟩ := hkeys hp
    rwa [Option.some.inj (hv.symm.trans hu)] at hnumbers

end Consistent
end Store

/-- In every history derivation is a strict order on the types of the arena. It tells the truth
about a key that leads to no cycle: its type derives from the type of another settled key if and
only if declared links lead from the one key to the other. -/
theorem derivation_is_strict_order (s : Snapshot) (qs : List Query) :
    let store := ((Compilation.create s).after qs).store
    (∀ t ∈ store.arena.toList, ¬ store.derives t t) ∧
    (∀ t ∈ store.arena.toList, ∀ u ∈ store.arena.toList, ∀ v ∈ store.arena.toList,
      store.derives t u → store.derives u v → store.derives t v) ∧
    (∀ t ∈ store.arena.toList, ∀ u ∈ store.arena.toList,
      store.derives t u → ¬ store.derives u t) ∧
    ∀ k j t u, store.find? k = some t → store.find? j = some u →
      (Catalog.ofProject s.project).AvoidsCycles k →
        (store.derives t u ↔ Relation.TransGen (Catalog.ofProject s.project).LinksTo k j) := by
  intro store
  have h := (Compilation.reached_after s qs).consistent
  have hget : ∀ {t}, t ∈ store.arena.toList → store.get? t.id = some t := h.get?_of_mem_arena
  refine ⟨?_, ?_, ?_, ?_⟩
  · intro t ht
    exact h.not_derives_self (hget ht)
  · intro t ht u hu v hv
    exact h.derives_trans (hget ht) (hget hu) (hget hv)
  · intro t ht u hu htu hut
    exact h.not_derives_self (hget ht) (h.derives_trans (hget ht) (hget hu) (hget ht) htu hut)
  · intro k j t u ht hu hk
    exact h.derives_iff_transGen_linksTo hk ht hu

/-- A chain of three classes, beside two classes that inherit from each other. -/
def Snapshot.tower : Snapshot :=
  initial.update (.addFile ⟨"a.cs", [⟨"", "A", .classType, [], [⟨"", "B", 0⟩], [], false⟩,
    ⟨"", "B", .classType, [], [⟨"", "C", 0⟩], [], false⟩,
    ⟨"", "C", .classType, [], [], [], false⟩,
    ⟨"", "X", .classType, [], [⟨"", "Y", 0⟩], [], false⟩,
    ⟨"", "Y", .classType, [], [⟨"", "X", 0⟩], [], false⟩]⟩)

/-- A class of the cycle derives from a placeholder for its own key, but not from itself. -/
theorem derivation_is_strict_order_tower :
    let catalog := Catalog.ofProject Snapshot.tower.project
    let store := ((Compilation.create .tower).after [.allTypes]).store
    let declared (id : TypeId) (name : String) (place : Nat) (bases : List TypeId) : ResolvedType :=
      ⟨id, ⟨"", name, 0⟩, .declared ⟨.classType, .source [⟨0, place⟩] ["a.cs"], []⟩ bases⟩
    let top := declared 0 "C" 2 []
    let bottom := declared 2 "A" 0 [1]
    let placeholder : ResolvedType := ⟨3, ⟨"", "X", 0⟩, .unknown .cycle⟩
    let y := declared 4 "Y" 4 [3]
    let x := declared 5 "X" 3 [4]
    (x ∈ store.arena.toList ∧ ¬ store.derives x x) ∧
    (store.derives x y ∧ store.derives y placeholder ∧ store.derives x placeholder) ∧
    ¬ store.derives y x ∧
    (catalog.AvoidsCycles ⟨"", "A", 0⟩ ∧ store.find? ⟨"", "A", 0⟩ = some bottom ∧
      store.find? ⟨"", "C", 0⟩ = some top ∧ store.derives bottom top ∧
      Relation.TransGen catalog.LinksTo ⟨"", "A", 0⟩ ⟨"", "C", 0⟩) := by
  intro catalog store declared top bottom placeholder y x
  obtain ⟨hirrefl, htrans, hasymm, htruth⟩ := derivation_is_strict_order .tower [.allTypes]
  have hx : x ∈ store.arena.toList := by decide +kernel
  have hy : y ∈ store.arena.toList := by decide +kernel
  have hplaceholder : placeholder ∈ store.arena.toList := by decide +kernel
  have hxy : store.derives x y := by decide +kernel
  have hcycle : store.derives y placeholder := by decide +kernel
  have havoids : catalog.AvoidsCycles ⟨"", "A", 0⟩ := by
    have hA : (Snapshot.tower.project.content ⟨"", "A", 0⟩).bases = [⟨"", "B", 0⟩] := by
      decide +kernel
    have hB : (Snapshot.tower.project.content ⟨"", "B", 0⟩).bases = [⟨"", "C", 0⟩] := by
      decide +kernel
    have hC : (Snapshot.tower.project.content ⟨"", "C", 0⟩).bases = [] := by decide +kernel
    have hlinks : ∀ {k base}, catalog.LinksTo k base →
        base ∈ (Snapshot.tower.project.content k).bases := Catalog.linksTo_iff.1
    refine Catalog.avoidsCycles_of_linksTo fun base hl => ?_
    obtain rfl : base = ⟨"", "B", 0⟩ := List.mem_singleton.1 (hA ▸ hlinks hl)
    refine Catalog.avoidsCycles_of_linksTo fun base hl => ?_
    obtain rfl : base = ⟨"", "C", 0⟩ := List.mem_singleton.1 (hB ▸ hlinks hl)
    exact Catalog.avoidsCycles_of_linksTo fun base hl => absurd (hC ▸ hlinks hl) List.not_mem_nil
  have hbottom : store.find? ⟨"", "A", 0⟩ = some bottom := by decide +kernel
  have htop : store.find? ⟨"", "C", 0⟩ = some top := by decide +kernel
  have hderives : store.derives bottom top := by decide +kernel
  exact ⟨⟨hx, hirrefl x hx⟩, ⟨hxy, hcycle, htrans x hx y hy _ hplaceholder hxy hcycle⟩,
    hasymm x hx y hy hxy, havoids, hbottom, htop, hderives,
    (htruth _ _ _ _ hbottom htop havoids).1 hderives⟩

end TypeCatalog
