import TypeCatalog.Proofs.WellFormed

/-!
# Which keys are settled

A look-up settles the key it was asked for and every key that declared links lead to from it, and
no other key. So the settled keys of a history are those that the links lead to from the keys that
its queries looked up themselves.
-/

namespace TypeCatalog

namespace Machine

/-- In the middle of the look-up of a key: the keys of the frames, and the keys that were settled
since it began with a store, are reached from the key. -/
structure Within (c : Catalog) (s : Store) (k : TypeKey) (m : Machine) : Prop where
  frames : ∀ j ∈ m.keys, c.Reaches k j
  settled : ∀ j, (m.store.find? j).isSome → (s.find? j).isSome ∨ c.Reaches k j

theorem within_openKey (c : Catalog) (s : Store) (k : TypeKey) :
    Within c s k (openKey c s ∅ k []) := by
  rw [openKey_eq]
  constructor
  · intro j hj
    obtain rfl := List.mem_singleton.1 hj
    exact .refl
  · intro j hj
    rw [Store.find?_reportAll, Store.find?_miss] at hj
    exact .inl hj

theorem within_move {c : Catalog} {s : Store} {k : TypeKey} {m m' : Machine} (h : Move c m m')
    (hm : Sound c m) (hw : Within c s k m) : Within c s k m' := by
  cases h with
  | resume s' o f parent link waiting hf =>
    refine ⟨fun j hj => hw.frames j (List.mem_cons_of_mem _ hj), fun j hj => ?_⟩
    rw [find?_reportMissing, Store.find?_settle] at hj
    split at hj
    · rename_i hkey
      exact .inr (hw.frames j (hkey ▸ List.mem_cons_self))
    · exact hw.settled j hj
  | cycle s' o key d bound link links waiting ho => exact ⟨hw.frames, hw.settled⟩
  | reuse s' o key d bound link links waiting t ho ht =>
    refine ⟨hw.frames, fun j hj => hw.settled j ?_⟩
    simpa [reuse] using hj
  | enter s' o key d bound link links waiting ho hs =>
    have hkey : c.Reaches k key := hw.frames key List.mem_cons_self
    rw [openKey_eq]
    refine ⟨fun j hj => ?_, fun j hj => hw.settled j (by simpa using hj)⟩
    rcases List.mem_cons.1 hj with rfl | hj
    · exact hkey.tail hm.current.linksTo
    · exact hw.frames j hj

end Machine

namespace Store

variable {c : Catalog} {s : Store}

/-- A look-up settles what its key leads to, and nothing else. -/
theorem Consistent.isSome_find?_resolve (h : s.Consistent c ∅) (k j : TypeKey) :
    ((s.resolve c k).2.find? j).isSome ↔ (s.find? j).isSome ∨ c.Reaches k j := by
  have ha := h.resolve k
  constructor
  · intro hj
    cases hs : s.find? k with
    | some t =>
      rw [resolve_of_settled c hs] at hj
      exact .inl hj
    | none =>
      obtain ⟨s', o, f, -, -, hw, -, hres⟩ := exists_last_frame (P := Machine.Within c s k)
        Machine.within_move h hs (Machine.within_openKey c s k)
      rw [hres, find?_settle, find?_push, key_next] at hj
      split at hj
      · rename_i hkey
        exact .inr (hw.frames j (hkey ▸ List.mem_cons_self))
      · exact hw.settled j hj
  · rintro (hj | hr)
    · exact ha.grows.isSome_find? hj
    · exact ha.consistent.isSome_of_reaches (by rw [ha.find?]; rfl) hr

theorem Consistent.isSome_find?_resolveAll (h : s.Consistent c ∅) (ks : List TypeKey)
    (j : TypeKey) : ((s.resolveAll c ks).2.find? j).isSome ↔
      (s.find? j).isSome ∨ ∃ k ∈ ks, c.Reaches k j := by
  induction ks generalizing s with
  | nil => simp [resolveAll_nil]
  | cons k ks ih =>
    rw [resolveAll_cons, ih (h.resolve k).consistent, h.isSome_find?_resolve, or_assoc]
    simp

end Store

namespace Compilation

/-- Which keys a query looks up is seen from the catalog alone. -/
theorem lookedUp_congr {c c' : Compilation} (h : c.catalog = c'.catalog) (q : Query) :
    c.lookedUp q = c'.lookedUp q := by
  cases q <;> simp [lookedUp, h]

theorem lookedUp_ask (c : Compilation) (q : Query) : (c.ask q).2.lookedUp = c.lookedUp :=
  funext (lookedUp_congr (c.catalog_ask q))

/-- A query settles what the keys it looks up lead to. -/
theorem isSome_find?_ask {c : Compilation} (h : c.store.Reached c.catalog) (q : Query)
    (j : TypeKey) : ((c.ask q).2.store.find? j).isSome ↔
      (c.store.find? j).isSome ∨ ∃ k ∈ c.lookedUp q, c.catalog.Reaches k j := by
  rw [ask_eq]
  exact h.consistent.isSome_find?_resolveAll _ j

theorem isSome_find?_after {c : Compilation} (h : c.store.Reached c.catalog) (qs : List Query)
    (j : TypeKey) : ((c.after qs).store.find? j).isSome ↔
      (c.store.find? j).isSome ∨ ∃ k ∈ qs.flatMap c.lookedUp, c.catalog.Reaches k j := by
  induction qs generalizing c with
  | nil => simp [after]
  | cons q qs ih =>
    have hrest := ih (reached_ask h q)
    rw [catalog_ask, lookedUp_ask, isSome_find?_ask h, or_assoc] at hrest
    simp only [List.flatMap_cons, List.mem_append, or_and_right, exists_or]
    exact hrest

end Compilation

/-- In every history the settled keys are those that declared links lead to, in any number of steps,
from the keys that its queries looked up themselves. No type of the arena has another key, and a
query that is refused leaves everything as it was. -/
theorem settled_iff_reached (s : Snapshot) (qs : List Query) :
    (∀ k, (((Compilation.create s).after qs).store.find? k).isSome ↔
      ∃ j ∈ qs.flatMap (Compilation.create s).lookedUp, (Catalog.ofProject s.project).Reaches j k) ∧
    (∀ i t, ((Compilation.create s).after qs).get? i = some t →
      (((Compilation.create s).after qs).store.find? t.key).isSome) ∧
    ∀ k fault, k.fault? = some fault → ((Compilation.create s).after qs).ask (.resolve k) =
      (.refused fault, (Compilation.create s).after qs) := by
  refine ⟨fun k => ?_, fun i t => (Compilation.reached_after s qs).consistent.isSome_find?_of_get?,
    fun k fault hk => ?_⟩
  · have hafter := Compilation.isSome_find?_after (c := .create s) .empty qs k
    simpa [Compilation.create, Store.find?] using hafter
  · rw [Compilation.ask, Compilation.resolve_of_fault hk]

/-- A class that names a base type, which nothing declares, and has a field of another class. -/
def Snapshot.field : Snapshot :=
  initial.update (.addFile ⟨"a.cs", [⟨"", "A", .classType, [], [⟨"", "Base", 0⟩],
    [⟨.field, "next", some ⟨"", "B", 0⟩, [], false⟩], false⟩,
    ⟨"", "B", .classType, [], [], [], false⟩]⟩)

theorem settled_iff_reached_field :
    let c := (Compilation.create .field).after [.resolve ⟨"", "A", 0⟩]
    (∀ k, (c.store.find? k).isSome ↔
      (Catalog.ofProject Snapshot.field.project).Reaches ⟨"", "A", 0⟩ k) ∧
    (c.store.find? ⟨"", "Base", 0⟩).isSome ∧ ¬ (c.store.find? ⟨"", "B", 0⟩).isSome ∧
    (∃ t, c.get? 0 = some t ∧ t.key = ⟨"", "Base", 0⟩ ∧ (c.store.find? t.key).isSome) ∧
    TypeKey.fault? ⟨"", "", 0⟩ = some .emptyName ∧
      c.ask (.resolve ⟨"", "", 0⟩) = (.refused .emptyName, c) := by
  intro c
  obtain ⟨hsettled, harena, hrefused⟩ := settled_iff_reached .field [.resolve ⟨"", "A", 0⟩]
  have hlooked : [Query.resolve ⟨"", "A", 0⟩].flatMap (Compilation.create .field).lookedUp =
      [⟨"", "A", 0⟩] := by decide +kernel
  have ht : c.get? 0 = some ⟨0, ⟨"", "Base", 0⟩, .unknown .unresolved⟩ := by decide +kernel
  have hfault : TypeKey.fault? ⟨"", "", 0⟩ = some .emptyName := by decide
  refine ⟨fun k => ?_, harena _ _ ht, by decide +kernel, ⟨_, ht, rfl, harena _ _ ht⟩, hfault,
    hrefused _ _ hfault⟩
  have hk := hsettled k
  rw [hlooked] at hk
  simpa using hk

end TypeCatalog
