import Mathlib.Data.List.Basic
import TypeCatalog.Proofs.Stack

/-!
# Growth of a store

A number keeps its type, a settled key keeps its type, and a report stays where it is. Every move of
a look-up only adds to the store, provided that the key of the closed frame was not settled before.
-/

namespace TypeCatalog

namespace Store

/-- What a store holds, a later one holds too. -/
structure Grows (s s' : Store) : Prop where
  get? : ∀ {i : TypeId} {t : ResolvedType}, s.get? i = some t → s'.get? i = some t
  find? : ∀ {k : TypeKey} {t : ResolvedType}, s.find? k = some t → s'.find? k = some t
  reports : s.reports.toList <+: s'.reports.toList

namespace Grows

theorem refl (s : Store) : Grows s s := ⟨id, id, List.prefix_rfl⟩

theorem trans {s s' s'' : Store} (h : Grows s s') (h' : Grows s' s'') : Grows s s'' :=
  ⟨fun ht => h'.get? (h.get? ht), fun ht => h'.find? (h.find? ht), h.reports.trans h'.reports⟩

theorem isSome_find? {s s' : Store} (h : Grows s s') {k : TypeKey} (hs : (s.find? k).isSome) :
    (s'.find? k).isSome := by
  obtain ⟨t, ht⟩ := Option.isSome_iff_exists.1 hs
  exact Option.isSome_iff_exists.2 ⟨t, h.find? ht⟩

theorem report (s : Store) (r : Report) : Grows s (s.report r) :=
  ⟨id, id, ⟨[r], by simp⟩⟩

theorem reportAll (s : Store) (rs : List Report) : Grows s (s.reportAll rs) where
  get? ht := by rwa [get?_congr (arena_reportAll s rs)]
  find? ht := by rwa [find?_reportAll]
  reports := ⟨rs, by simp⟩

theorem reportMissing (s : Store) (subject : TypeKey) (link : BaseLink) (t : ResolvedType) :
    Grows s (s.reportMissing subject link t) := by
  unfold Store.reportMissing
  split
  · exact report s _
  · exact refl s

theorem hit (s : Store) : Grows s s.hit := ⟨id, id, List.prefix_rfl⟩
theorem miss (s : Store) : Grows s s.miss := ⟨id, id, List.prefix_rfl⟩

theorem push (s : Store) (t : ResolvedType) : Grows s (s.push t) where
  get? {i u} hu := by
    have hi : i ≠ s.arena.size := Nat.ne_of_lt (lt_size_of_get? hu)
    simpa [hi] using hu
  find? := id
  reports := List.prefix_rfl

theorem settle {s : Store} {t : ResolvedType} (h : s.find? t.key = none) :
    Grows s (s.settle t) where
  get? := id
  find? {k u} hu := by
    have hk : t.key ≠ k := by
      rintro rfl
      cases h.symm.trans hu
    simpa [hk] using hu
  reports := List.prefix_rfl

end Grows
end Store

namespace Machine

/-- A move adds to the store if it closes no frame of a key that is settled already. -/
theorem grows_move {c : Catalog} {m m' : Machine} (h : Move c m m')
    (hm : m.store.find? m.current.key = none) : m.store.Grows m'.store := by
  cases h with
  | resume s o f parent link waiting hf =>
    have hk : (s.push (s.next f.key f.binding)).find? (s.next f.key f.binding).key = none := hm
    exact ((Store.Grows.push s _).trans (.settle hk)).trans (.reportMissing _ _ _ _)
  | cycle s o k d bound link links waiting ho => exact (Store.Grows.report s _).trans (.push _ _)
  | reuse s o k d bound link links waiting t ho ht =>
    exact (Store.Grows.hit s).trans (.reportMissing _ _ _ _)
  | enter s o k d bound link links waiting ho hs =>
    rw [openKey_eq]
    exact (Store.Grows.miss s).trans (.reportAll _ _)

end Machine
end TypeCatalog
