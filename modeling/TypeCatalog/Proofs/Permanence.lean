import TypeCatalog.Proofs.Correspondence
import TypeCatalog.Proofs.WellFormed

/-!
# Types that were handed out

Every type that an answer hands out stands in the arena under its number, and stays there. So all
answers of a history that name one key hand out one type, cycle placeholders apart, and whatever is
asked later changes neither the type nor what it inherits from.
-/

namespace TypeCatalog

namespace Store

/-- A number of a store, which is the same in every later one. -/
def OldNumber (s : Store) (i j : TypeId) : Prop :=
  i = j ∧ i < s.arena.size

/-- A walk finds types of the store only. -/
theorem forall_mem_walk {s : Store} {P : ResolvedType → Prop}
    (hget : ∀ {id t}, s.get? id = some t → P t) {met : Std.TreeSet TypeId}
    {found : Array ResolvedType} {queue : List TypeId} (hf : ∀ t ∈ found.toList, P t) :
    ∀ t ∈ (s.walk met found queue).toList, P t := by
  induction met, found, queue using walk.induct s with
  | case1 met found => simpa [walk] using hf
  | case2 met found id queue hmet ih =>
    rw [walk_of_met hmet]
    exact ih hf
  | case3 met found id queue hmet hnone ih =>
    rw [walk_of_get?_eq_none hmet hnone]
    exact ih hf
  | case4 met found id queue hmet t ht ih =>
    rw [walk_of_get? hmet ht]
    refine ih fun u hu => ?_
    rw [Array.toList_push, List.mem_append, List.mem_singleton] at hu
    rcases hu with hu | rfl
    · exact hf u hu
    · exact hget ht

namespace Consistent

variable {c : Catalog} {o : Std.TreeSet TypeKey} {s s' : Store}

theorem get?_of_mem_directBases (h : s.Consistent c o) {t u : ResolvedType}
    (hu : u ∈ s.directBases t) : s.get? u.id = some u := by
  obtain ⟨i, -, hi⟩ := List.mem_filterMap.1 hu
  exact h.get?_id hi

theorem get?_of_mem_closure (h : s.Consistent c o) {t u : ResolvedType} (hu : u ∈ s.closure t) :
    s.get? u.id = some u :=
  forall_mem_walk (P := fun u => s.get? u.id = some u) h.get?_id (by simp) u hu

theorem base_lt_size (h : s.Consistent c o) {t : ResolvedType} (ht : s.get? t.id = some t) :
    ∀ b ∈ t.bases, b < s.arena.size :=
  fun b hb => Nat.lt_trans (h.base_lt ht b hb) (lt_size_of_get? ht)

/-- In a later store a type of the earlier one is paired with itself. -/
theorem paired_self (h : s.Consistent c o) (hg : s.Grows s') {t : ResolvedType}
    (ht : s.get? t.id = some t) : Paired s.OldNumber s s' t t where
  ids := ⟨rfl, lt_size_of_get? ht⟩
  left := ht
  right := hg.get? ht
  bases := List.forall₂_same.2 fun b hb => ⟨rfl, h.base_lt_size ht b hb⟩

theorem corresponds_of_grows (h : s.Consistent c o) (hg : s.Grows s') :
    Corresponds s.OldNumber s s' where
  unique := ⟨fun _ _ _ hi hj => hi.1.trans hj.1.symm, fun _ _ _ hi hj => hi.1.symm.trans hj.1⟩
  paired := by
    rintro i _ ⟨rfl, hi⟩
    obtain ⟨t, ht⟩ := exists_get?_of_lt hi
    exact ⟨t, t, h.id_eq ht, h.id_eq ht, h.paired_self hg (h.get?_id ht)⟩

/-- What a type inherits from stays as it is. -/
theorem closure_eq_of_grows (h : s.Consistent c o) (hg : s.Grows s') {t : ResolvedType}
    (ht : s.get? t.id = some t) : s'.closure t = s.closure t := by
  have hsame : ∀ u v, Paired s.OldNumber s s' u v → u = v := by
    intro u v hp
    have hu : s'.get? v.id = some u := hp.ids.1 ▸ hg.get? hp.left
    exact Option.some.inj (hu.symm.trans hp.right)
  have hclosure := ((h.corresponds_of_grows hg).forall₂_closure (h.paired_self hg ht)).imp hsame
  rw [List.forall₂_eq_eq_eq] at hclosure
  exact hclosure.symm

theorem directBases_eq_of_grows (h : s.Consistent c o) (hg : s.Grows s') {t : ResolvedType}
    (ht : s.get? t.id = some t) : s'.directBases t = s.directBases t := by
  refine List.filterMap_congr fun b hb => ?_
  obtain ⟨u, hu⟩ := exists_get?_of_lt (h.base_lt_size ht b hb)
  rw [hu, hg.get? hu]

end Consistent
end Store

/-- The types that an answer hands out. -/
def Answer.handed : Answer → List ResolvedType
  | .type t => [t]
  | .found t => t.toList
  | .types ts => ts
  | _ => []

namespace Compilation

/-- All types that a history hands out, from the first query to the last. -/
def handedOut (c : Compilation) : List Query → List ResolvedType
  | [] => []
  | q :: qs => (c.ask q).1.handed ++ handedOut (c.ask q).2 qs

/-- A type, and what it inherits from, is the same in a later state of a compilation. -/
structure Keeps (c c' : Compilation) (t : ResolvedType) : Prop where
  get? : c'.get? t.id = some t
  directBases : c'.store.directBases t = c.store.directBases t
  closure : c'.store.closure t = c.store.closure t
  derives : ∀ base, c'.store.derives t base = c.store.derives t base

theorem get?_lookup {c : Compilation} (h : c.store.Reached c.catalog) (k : TypeKey) :
    (c.lookup k).2.get? (c.lookup k).1.id = some (c.lookup k).1 := by
  have ha := h.consistent.resolve k
  exact (ha.consistent.settled_iff.1 ha.find?).2.1

/-- The answer to any query hands out types that stand in the arena then. -/
theorem get?_of_mem_handed {c : Compilation} (h : c.store.Reached c.catalog) {q : Query}
    {t : ResolvedType} (ht : t ∈ (c.ask q).1.handed) : (c.ask q).2.get? t.id = some t := by
  cases q with
  | resolve k =>
    cases hk : k.fault? with
    | some fault => simp [ask, resolve_of_fault hk, Answer.handed] at ht
    | none =>
      simp only [ask, resolve_of_sound hk, Answer.handed, List.mem_singleton] at ht ⊢
      exact ht ▸ get?_lookup h k
  | memberType m =>
    cases hm : m.sited.member.returnType with
    | none => simp [ask, memberType, hm, Answer.handed] at ht
    | some k =>
      simp only [ask, memberType, hm, Answer.handed, Option.toList_some,
        List.mem_singleton] at ht ⊢
      exact ht ▸ get?_lookup h k
  | allTypes =>
    have ha := h.consistent.resolveAll c.catalog.visibleKeys
    exact (ha.consistent.settled_iff.1 (ha.find?_of_mem ht)).2.1
  | get id =>
    have hid : c.get? id = some t := by simpa [ask, Answer.handed] using ht
    exact h.consistent.get?_id hid
  | directBases u => exact h.consistent.get?_of_mem_directBases ht
  | closure u => exact h.consistent.get?_of_mem_closure ht
  | checkAll => cases ht
  | derives u base => cases ht
  | diagnostics => cases ht
  | counts => cases ht

theorem get?_of_mem_handedOut {c : Compilation} (h : c.store.Reached c.catalog) {qs : List Query}
    {t : ResolvedType} (ht : t ∈ c.handedOut qs) : (c.after qs).get? t.id = some t := by
  induction qs generalizing c with
  | nil => cases ht
  | cons q qs ih =>
    have hask := reached_ask h q
    rcases List.mem_append.1 ht with ht | ht
    · exact (grows_after hask qs).get? (get?_of_mem_handed h ht)
    · exact ih hask ht

/-- A type that was handed out is kept, whatever is asked later. -/
theorem keeps_of_mem_handedOut (s : Snapshot) {qs : List Query} {t : ResolvedType}
    (ht : t ∈ (create s).handedOut qs) (later : List Query) :
    Keeps ((create s).after qs) ((create s).after (qs ++ later)) t := by
  have hc := (reached_after s qs).consistent
  have hg := grows_after_append s qs later
  have hget := get?_of_mem_handedOut .empty ht
  have hclosure := hc.closure_eq_of_grows hg hget
  exact ⟨hg.get? hget, hc.directBases_eq_of_grows hg hget, hclosure,
    fun base => by rw [Store.derives, Store.derives, hclosure]⟩

/-- A type that was handed out and is no cycle placeholder is the one its key stands for. -/
theorem find?_of_mem_handedOut (s : Snapshot) {qs : List Query} {t : ResolvedType}
    (ht : t ∈ (create s).handedOut qs) (ho : t.origin ≠ .unknown .cycle) :
    ((create s).after qs).store.find? t.key = some t :=
  (reached_after s qs).consistent.settled_iff.2
    ⟨rfl, get?_of_mem_handedOut .empty ht, mt t.origin_eq_cycle_iff.2 ho⟩

theorem prefix_diagnostics (s : Snapshot) (qs later : List Query) :
    ((create s).after qs).diagnostics.entries.toList <+:
      ((create s).after (qs ++ later)).diagnostics.entries.toList := by
  simpa [diagnostics] using (grows_after_append s qs later).reports.map Report.diagnostic

end Compilation

/-- In every history one type is handed out for each key, cycle placeholders apart. What was handed
out is kept, the log only grows at its end, and the next look-up of a settled key counts one hit and
changes nothing else. -/
theorem one_type_for_each_key (s : Snapshot) (qs later : List Query) :
    let c := (Compilation.create s).after qs
    let c' := (Compilation.create s).after (qs ++ later)
    (∀ t ∈ (Compilation.create s).handedOut (qs ++ later),
      ∀ u ∈ (Compilation.create s).handedOut (qs ++ later),
        t.key = u.key → t.origin ≠ .unknown .cycle → u.origin ≠ .unknown .cycle → t = u) ∧
    (∀ t ∈ (Compilation.create s).handedOut qs, c.Keeps c' t) ∧
    c.diagnostics.entries.toList <+: c'.diagnostics.entries.toList ∧
    ∀ k t, c.store.find? k = some t → c.lookup k = (t, { c with store := { c.store with
      count := ⟨c.store.count.hits + 1, c.store.count.misses⟩ } }) := by
  intro c c'
  refine ⟨?_, ?_, Compilation.prefix_diagnostics s qs later, ?_⟩
  · intro t ht u hu hkey hto huo
    have htf := Compilation.find?_of_mem_handedOut s ht hto
    have huf := Compilation.find?_of_mem_handedOut s hu huo
    rw [hkey, huf] at htf
    exact (Option.some.inj htf).symm
  · exact fun t ht => Compilation.keeps_of_mem_handedOut s ht later
  · intro k t ht
    rw [Compilation.lookup, Store.resolve_of_settled c.catalog ht]
    rfl

/-- Two classes that inherit from each other. -/
def Snapshot.loop : Snapshot :=
  initial.update (.addFile ⟨"a.cs", [⟨"", "A", .classType, [], [⟨"", "B", 0⟩], [], false⟩,
    ⟨"", "B", .classType, [], [⟨"", "A", 0⟩], [], false⟩]⟩)

/-- The class that is looked up first is found again among all types, and the placeholder that takes
its place among the base types of the other class is kept. -/
theorem one_type_for_each_key_loop :
    let qs := [.resolve ⟨"", "A", 0⟩, .get 0]
    let later := [.resolve ⟨"", "B", 0⟩, .allTypes]
    let c := (Compilation.create .loop).after qs
    let c' := (Compilation.create .loop).after (qs ++ later)
    let handed := (Compilation.create .loop).handedOut (qs ++ later)
    let placeholder : ResolvedType := ⟨0, ⟨"", "A", 0⟩, .unknown .cycle⟩
    (∃ t u, handed[0]? = some t ∧ handed[3]? = some u ∧ t.key = u.key ∧
      t.origin ≠ .unknown .cycle ∧ u.origin ≠ .unknown .cycle ∧ t = u) ∧
    (placeholder ∈ (Compilation.create .loop).handedOut qs ∧ c.Keeps c' placeholder) ∧
    ∃ t, c.store.find? ⟨"", "A", 0⟩ = some t ∧ c.lookup ⟨"", "A", 0⟩ =
      (t, { c with store := { c.store with count := ⟨1, 2⟩ } }) := by
  intro qs later c c' handed placeholder
  obtain ⟨hone, hkept, -, hhit⟩ := one_type_for_each_key .loop qs later
  let t : ResolvedType :=
    ⟨2, ⟨"", "A", 0⟩, .declared ⟨.classType, .source [⟨0, 0⟩] ["a.cs"], []⟩ [1]⟩
  have hfirst : handed[0]? = some t := by decide +kernel
  have hlast : handed[3]? = some t := by decide +kernel
  have hplaceholder : placeholder ∈ (Compilation.create .loop).handedOut qs := by decide +kernel
  have hfind : c.store.find? ⟨"", "A", 0⟩ = some t := by decide +kernel
  have hcount : c.store.count = ⟨0, 2⟩ := by decide +kernel
  have ho : t.origin ≠ .unknown .cycle := by decide
  have hone := hone t (List.mem_of_getElem? hfirst) t (List.mem_of_getElem? hlast) rfl ho ho
  refine ⟨⟨t, t, hfirst, hlast, rfl, ho, ho, hone⟩, ⟨hplaceholder, hkept _ hplaceholder⟩,
    t, hfind, ?_⟩
  have hlookup := hhit _ _ hfind
  rw [hcount] at hlookup
  exact hlookup

end TypeCatalog
