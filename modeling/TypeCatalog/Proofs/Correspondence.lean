import Mathlib.Data.List.Forall2
import Mathlib.Logic.Relator
import TypeCatalog.Inheritance

/-!
# Closures in two stores

Numbers of two stores correspond one to one if types with corresponding numbers have corresponding
base types. The closures of two such types then correspond too, place by place. One of the stores
may be a later state of the other, or both may have numbered the same types in different orders.
-/

namespace TypeCatalog

/-- Lists that are related place by place have equal images if related elements have. -/
theorem map_eq_map_of_forall₂ {α β γ : Type} {R : α → β → Prop} {f : α → γ} {g : β → γ}
    {l : List α} {l' : List β} (h : List.Forall₂ R l l') (hfg : ∀ a b, R a b → f a = g b) :
    l.map f = l'.map g := by
  rw [← List.forall₂_eq_eq_eq, List.forall₂_map_left_iff, List.forall₂_map_right_iff]
  exact h.imp hfg

namespace Store

variable {R : TypeId → TypeId → Prop} {s s' : Store}

/-- Types of two stores whose numbers correspond, and the numbers of whose base types do. -/
structure Paired (R : TypeId → TypeId → Prop) (s s' : Store) (t u : ResolvedType) : Prop where
  ids : R t.id u.id
  left : s.get? t.id = some t
  right : s'.get? u.id = some u
  bases : List.Forall₂ R t.bases u.bases

structure Corresponds (R : TypeId → TypeId → Prop) (s s' : Store) : Prop where
  unique : Relator.BiUnique R
  paired : ∀ {i j}, R i j → ∃ t u, t.id = i ∧ u.id = j ∧ Paired R s s' t u

namespace Corresponds

theorem eq_iff (h : Corresponds R s s') {i i' j j' : TypeId} (hj : R i j) (hj' : R i' j') :
    i = i' ↔ j = j' := by
  constructor
  · rintro rfl
    exact h.unique.2 hj hj'
  · rintro rfl
    exact h.unique.1 hj hj'

/-- Sets of corresponding numbers stay so when two corresponding numbers are added. -/
theorem contains_insert (h : Corresponds R s s') {met met' : Std.TreeSet TypeId}
    (hm : ∀ i j, R i j → (met.contains i ↔ met'.contains j)) {i j : TypeId} (hij : R i j) :
    ∀ i' j', R i' j' → ((met.insert i).contains i' ↔ (met'.insert j).contains j') := by
  intro i' j' hij'
  simp only [Std.TreeSet.contains_insert, Std.LawfulEqOrd.compare_eq_iff_eq, Bool.or_eq_true,
    beq_iff_eq, h.eq_iff hij hij', hm i' j' hij']

/-- Two walks along corresponding numbers find corresponding types, in one order. -/
theorem forall₂_walk (h : Corresponds R s s') {met met' : Std.TreeSet TypeId}
    {found found' : Array ResolvedType} {queue queue' : List TypeId}
    (hm : ∀ i j, R i j → (met.contains i ↔ met'.contains j))
    (hf : List.Forall₂ (Paired R s s') found.toList found'.toList)
    (hq : List.Forall₂ R queue queue') :
    List.Forall₂ (Paired R s s') (s.walk met found queue).toList
      (s'.walk met' found' queue').toList := by
  -- the bounds of the two walks have nothing to do with each other; the first one carries both
  induction met, found, queue using walk.induct s generalizing met' found' queue' with
  | case1 met found =>
    cases hq
    simpa [walk] using hf
  | case2 met found id queue hmet ih =>
    obtain _ | ⟨hij, hq⟩ := hq
    rw [walk_of_met hmet, walk_of_met ((hm _ _ hij).1 hmet)]
    exact ih hm hf hq
  | case3 met found id queue hmet hnone ih =>
    obtain _ | ⟨hij, hq⟩ := hq
    obtain ⟨t, u, rfl, rfl, hp⟩ := h.paired hij
    cases hnone.symm.trans hp.left
  | case4 met found id queue hmet t ht ih =>
    obtain _ | ⟨hij, hq⟩ := hq
    obtain ⟨t', u, rfl, rfl, hp⟩ := h.paired hij
    cases ht.symm.trans hp.left
    rw [walk_of_get? hmet ht, walk_of_get? (mt (hm _ _ hij).2 hmet) hp.right]
    exact ih (h.contains_insert hm hij) (by simpa using List.rel_append hf (.cons hp .nil))
      (List.rel_append hq hp.bases)

/-- The closures of two paired types are paired, place by place. -/
theorem forall₂_closure (h : Corresponds R s s') {t u : ResolvedType} (hp : Paired R s s' t u) :
    List.Forall₂ (Paired R s s') (s.closure t) (s'.closure u) :=
  h.forall₂_walk (h.contains_insert (by simp) hp.ids) .nil hp.bases

/-- Paired types derive alike from two types whose numbers correspond to nothing else. -/
theorem derives_eq (h : Corresponds R s s') {t u : ResolvedType} (hp : Paired R s s' t u)
    {a b : ResolvedType} (hab : ∀ i j, R i j → (i = a.id ↔ j = b.id)) :
    s.derives t a = s'.derives u b := by
  have hmap : (s.closure t).map (fun v => decide (v.id = a.id)) =
      (s'.closure u).map (fun v => decide (v.id = b.id)) :=
    map_eq_map_of_forall₂ (h.forall₂_closure hp) fun v w hv => by simp [hab _ _ hv.ids]
  have hany := congrArg (List.any · id) hmap
  simpa [List.any_map, Function.comp_def, derives] using hany

end Corresponds
end Store
end TypeCatalog
