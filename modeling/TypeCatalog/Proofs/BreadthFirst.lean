import Mathlib.Order.Lattice.Nat
import TypeCatalog.Proofs.Derivation
import TypeCatalog.Proofs.Permanence

/-!
# Breadth first

The closure of a type holds the numbers that its links and then the links of the closure itself
name, each at its first occurrence; only its own number and the numbers of no type are left out.
This equation settles which numbers it holds and in what order they stand: whatever stands before a
first occurrence is named no later, so the shortest ways to the numbers never get shorter along the
closure.
-/

namespace TypeCatalog

/-- What stands before a first occurrence occurs before it. -/
theorem mem_of_sublist_eraseDups {α : Type} [BEq α] [LawfulBEq α] {as bs : List α} {a b : α}
    (h : [a, b].Sublist (as ++ bs).eraseDups) (hb : b ∈ as) : a ∈ as := by
  rw [List.eraseDups_append, List.sublist_append_iff] at h
  obtain ⟨l, l', hl, hsub, hsub'⟩ := h
  have hb' : b ∉ l' := fun hmem => by
    have hrest := List.mem_eraseDups.1 (hsub'.subset hmem)
    simp [List.removeAll, hb] at hrest
  rcases l with _ | ⟨x, l⟩
  · rw [List.nil_append] at hl
    exact absurd (hl ▸ List.mem_cons_of_mem a List.mem_cons_self) hb'
  · obtain ⟨rfl, -⟩ := List.cons_eq_cons.1 hl
    exact List.mem_eraseDups.1 (hsub.subset List.mem_cons_self)

namespace Store

/-- Whether the closure of a type takes up a number that it comes upon. -/
def admits (s : Store) (t : ResolvedType) (i : TypeId) : Bool :=
  i ≠ t.id && (s.get? i).isSome

/-- A way of so many base links from a type to a number. It comes upon neither the number of the
type itself nor one that no type has. -/
inductive Way (s : Store) (t : ResolvedType) : Nat → TypeId → Prop
  | base {b : TypeId} : b ∈ t.bases → s.admits t b → Way s t 1 b
  | link {n : Nat} {i b : TypeId} : Way s t n i → s.Inherits i b → s.admits t b →
      Way s t (n + 1) b

/-- The length of the shortest way from a type to a number. -/
noncomputable def distance (s : Store) (t : ResolvedType) (i : TypeId) : Nat :=
  sInf {n | s.Way t n i}

variable {s : Store} {t u : ResolvedType} {i : TypeId} {n : Nat}

theorem distance_le (h : s.Way t n i) : s.distance t i ≤ n :=
  Nat.sInf_le h

theorem way_distance (h : s.Way t n i) : s.Way t (s.distance t i) i :=
  Nat.sInf_mem (s := {n | s.Way t n i}) ⟨n, h⟩

theorem contains_insert (met : Std.TreeSet TypeId) (id i : TypeId) :
    (met.insert id).contains i = (decide (i = id) || met.contains i) := by
  rw [Bool.eq_iff_iff, Bool.or_eq_true, decide_eq_true_iff, ← Std.TreeSet.mem_iff_contains,
    ← Std.TreeSet.mem_iff_contains, Std.TreeSet.mem_insert, Std.LawfulEqOrd.compare_eq_iff_eq,
    eq_comm]

/-- A walk finds types in the order in which its queue and then the types themselves name them. -/
theorem exists_toList_walk (hid : ∀ {i : TypeId} {u : ResolvedType}, s.get? i = some u → u.id = i)
    (met : Std.TreeSet TypeId) (found : Array ResolvedType) (queue : List TypeId) :
    ∃ new : List ResolvedType, (s.walk met found queue).toList = found.toList ++ new ∧
      new.map ResolvedType.id = ((queue ++ new.flatMap ResolvedType.bases).filter fun i =>
        !met.contains i && (s.get? i).isSome).eraseDups := by
  induction met, found, queue using walk.induct s with
  | case1 met found => exact ⟨[], by simp [walk], rfl⟩
  | case2 met found id queue hmet ih =>
    obtain ⟨new, hwalk, hnew⟩ := ih
    refine ⟨new, by rw [walk_of_met hmet, hwalk], ?_⟩
    rw [hnew, List.cons_append, List.filter_cons_of_neg (by simp [hmet])]
  | case3 met found id queue hmet hnone ih =>
    obtain ⟨new, hwalk, hnew⟩ := ih
    refine ⟨new, by rw [walk_of_get?_eq_none hmet hnone, hwalk], ?_⟩
    rw [hnew, List.cons_append, List.filter_cons_of_neg (by simp [hnone])]
    congr 1
    refine List.filter_congr fun i _ => ?_
    rw [contains_insert]
    by_cases hi : i = id
    · simp [hi, hnone]
    · simp [hi]
  | case4 met found id queue hmet u hu ih =>
    obtain ⟨new, hwalk, hnew⟩ := ih
    refine ⟨u :: new, by rw [walk_of_get? hmet hu, hwalk]; simp, ?_⟩
    rw [List.map_cons, hnew, hid hu, List.flatMap_cons, ← List.append_assoc, List.cons_append,
      List.cons_append, List.filter_cons_of_pos (by simp [hmet, hu]), List.eraseDups_cons,
      List.filter_filter]
    congr 2
    refine List.filter_congr fun i _ => ?_
    rw [contains_insert, Bool.not_or, Bool.and_assoc, beq_eq_decide]

namespace Consistent

variable {c : Catalog} {o : Std.TreeSet TypeKey}

theorem map_id_closure (h : s.Consistent c o) (t : ResolvedType) :
    (s.closure t).map ResolvedType.id =
      ((t.bases ++ (s.closure t).flatMap ResolvedType.bases).filter (s.admits t)).eraseDups := by
  obtain ⟨new, hwalk, hnew⟩ := exists_toList_walk h.id_eq (Std.TreeSet.insert ∅ t.id) #[] t.bases
  have hclosure : s.closure t = new := by simpa [closure] using hwalk
  rw [hclosure, hnew]
  congr 1
  refine List.filter_congr fun i _ => ?_
  rw [contains_insert]
  simp [admits]

/-- The closure takes up whatever the links of the type or of one of its own types name. -/
theorem mem_map_id_closure (h : s.Consistent c o) : i ∈ (s.closure t).map ResolvedType.id ↔
    (i ∈ t.bases ∨ ∃ u ∈ s.closure t, i ∈ u.bases) ∧ s.admits t i := by
  rw [h.map_id_closure, List.mem_eraseDups, List.mem_filter, List.mem_append, List.mem_flatMap]

theorem exists_way_of_mem_closure (h : s.Consistent c o) (hu : u ∈ s.closure t) :
    ∃ n, s.Way t n u.id := by
  obtain ⟨i, ⟨first, hfirst, hmet, hp⟩, hi⟩ := (mem_walk_iff.1 hu).resolve_left (by simp)
  have hadmits : ∀ {b : TypeId}, b ∉ (∅ : Std.TreeSet TypeId).insert t.id →
      (s.get? b).isSome → s.admits t b :=
    fun hb hsome => by simp [admits, (not_mem_insert_iff.1 hb).1, hsome]
  rw [h.id_eq hi]
  replace hi : (s.get? i).isSome := by simp [hi]
  -- all numbers on the way but the last have links, so that types have them
  induction hp with
  | refl => exact ⟨1, .base hfirst (hadmits hmet hi)⟩
  | tail _ hab ih =>
    obtain ⟨v, hv, hb⟩ := hab.1
    obtain ⟨n, hn⟩ := ih (by simp [hv])
    exact ⟨n + 1, .link hn hab.1 (hadmits hab.2 hi)⟩

theorem mem_closure_of_way (h : s.Consistent c o) (hw : s.Way t n i) :
    ∃ u ∈ s.closure t, u.id = i := by
  rw [← List.mem_map]
  induction hw with
  | base hb hadmits => exact h.mem_map_id_closure.2 ⟨.inl hb, hadmits⟩
  | link _ hib hadmits ih =>
    obtain ⟨u, hu, rfl⟩ := List.mem_map.1 ih
    obtain ⟨u', hu', hb⟩ := hib
    obtain rfl : u = u' := Option.some.inj ((h.get?_of_mem_closure hu).symm.trans hu')
    exact h.mem_map_id_closure.2 ⟨.inr ⟨u, hu, hb⟩, hadmits⟩

theorem distance_le_succ (h : s.Consistent c o) (hu : u ∈ s.closure t) (hi : i ∈ u.bases)
    (hadmits : s.admits t i) : s.distance t i ≤ s.distance t u.id + 1 := by
  obtain ⟨n, hn⟩ := h.exists_way_of_mem_closure hu
  exact distance_le (.link (way_distance hn) ⟨u, h.get?_of_mem_closure hu, hi⟩ hadmits)

/-- Of two types of the closure the first is named as early as the second. -/
theorem mem_named_of_sublist (h : s.Consistent c o) {v : ResolvedType}
    (huv : [u, v].Sublist (s.closure t)) {before after : List ResolvedType}
    (hsplit : s.closure t = before ++ after)
    (hv : v.id ∈ t.bases ++ before.flatMap ResolvedType.bases) :
    u.id ∈ t.bases ++ before.flatMap ResolvedType.bases := by
  have hids := huv.map ResolvedType.id
  have hadmits : s.admits t v.id :=
    (h.mem_map_id_closure.1 (hids.subset (List.mem_cons_of_mem _ List.mem_cons_self))).2
  rw [h.map_id_closure, hsplit, List.flatMap_append, ← List.append_assoc, List.filter_append]
    at hids
  exact (List.mem_filter.1 (mem_of_sublist_eraseDups hids (List.mem_filter.2 ⟨hv, hadmits⟩))).1

/-- Of two types of the closure the first has the shorter way: it is named by the links of the type
itself or of one that stands no later than the last stop on the way to the second. -/
theorem distance_le_of_sublist (h : s.Consistent c o) {v : ResolvedType}
    (huv : [u, v].Sublist (s.closure t)) (hv : s.Way t n v.id) : s.distance t u.id ≤ n := by
  have hadmits : s.admits t u.id :=
    (h.mem_map_id_closure.1 (List.mem_map_of_mem (huv.subset List.mem_cons_self))).2
  induction n generalizing u v with
  | zero => nomatch hv
  | succ n ih =>
    cases hv with
    | base hb =>
      have hu : u.id ∈ t.bases := by
        simpa using h.mem_named_of_sublist huv (List.nil_append _).symm (by simpa using hb)
      have hle := distance_le (.base hu hadmits)
      omega
    | link hw hib =>
      obtain ⟨w, hwmem, rfl⟩ := h.mem_closure_of_way hw
      have hb : v.id ∈ w.bases := by
        rwa [inherits_iff, basesAt_of_get? (h.get?_of_mem_closure hwmem)] at hib
      obtain ⟨before, after, hsplit⟩ := List.append_of_mem hwmem
      have hu := h.mem_named_of_sublist huv (hsplit.trans (List.append_cons ..)) (by simp [hb])
      rcases List.mem_append.1 hu with hu | hu
      · have hle := distance_le (.base hu hadmits)
        omega
      · obtain ⟨parent, hparent, hu⟩ := List.mem_flatMap.1 hu
        have hmem : parent ∈ s.closure t := by
          rw [hsplit, List.append_cons]
          exact List.mem_append_left _ hparent
        have hle : s.distance t parent.id ≤ n := by
          rcases List.mem_append.1 hparent with hparent | hparent
          · have hpair : [parent, w].Sublist (before ++ w :: after) :=
              (List.singleton_sublist.2 hparent).append
                (List.singleton_sublist.2 List.mem_cons_self)
            exact ih (hsplit ▸ hpair) hw (h.mem_map_id_closure.1 (List.mem_map_of_mem hmem)).2
          · rw [List.mem_singleton.1 hparent]
            exact distance_le hw
        have hstep := h.distance_le_succ hmem hu hadmits
        omega

theorem pairwise_distance_le (h : s.Consistent c o) (t : ResolvedType) :
    (s.closure t).Pairwise fun u v => s.distance t u.id ≤ s.distance t v.id := by
  refine List.pairwise_iff_forall_sublist.2 fun {u v} huv => ?_
  have hv : v ∈ s.closure t := huv.subset (List.mem_cons_of_mem _ List.mem_cons_self)
  obtain ⟨n, hn⟩ := h.exists_way_of_mem_closure hv
  exact h.distance_le_of_sublist huv (way_distance hn)

end Consistent
end Store

/-- In every history the closure of a type, whether or not the arena has it, holds types of the
arena, each once and never with the number of the type itself. Their numbers are those that ways of
base links lead to, and the shortest ways to them get no shorter along the closure. The numbers
stand as they first occur in the links of the type, followed by those of the types of the closure
one after the other. -/
theorem closure_is_breadth_first (s : Snapshot) (qs : List Query) (t : ResolvedType) :
    let store := ((Compilation.create s).after qs).store
    let closure := store.closure t
    (∀ u ∈ closure, store.get? u.id = some u ∧ u.id ≠ t.id) ∧
    (closure.map ResolvedType.id).Nodup ∧
    (∀ i, i ∈ closure.map ResolvedType.id ↔ ∃ n, store.Way t n i) ∧
    closure.Pairwise (fun u v => store.distance t u.id ≤ store.distance t v.id) ∧
    closure.map ResolvedType.id =
      ((t.bases ++ closure.flatMap ResolvedType.bases).filter (store.admits t)).eraseDups := by
  intro store closure
  have h : store.Consistent _ ∅ := (Compilation.reached_after s qs).consistent
  refine ⟨fun u hu => ⟨h.get?_of_mem_closure hu, fun hid => ?_⟩, ?_, fun i => ⟨fun hi => ?_, ?_⟩,
    h.pairwise_distance_le t, h.map_id_closure t⟩
  · obtain ⟨-, hadmits⟩ := h.mem_map_id_closure.1 (List.mem_map_of_mem hu)
    simp [Store.admits, hid] at hadmits
  · rw [h.map_id_closure, ← distinct_eq_eraseDups]
    exact nodup_distinct _
  · obtain ⟨u, hu, rfl⟩ := List.mem_map.1 hi
    exact h.exists_way_of_mem_closure hu
  · rintro ⟨n, hn⟩
    exact List.mem_map.2 (h.mem_closure_of_way hn)

/-- A type of another compilation, one of whose links no type here has. The class that two of its
links lead to stands where the first of them names it. -/
theorem closure_is_breadth_first_foreign :
    let store := ((Compilation.create .tower).after [.allTypes]).store
    let foreign : ResolvedType := ⟨9, ⟨"", "D", 0⟩,
      .declared ⟨.classType, .source [⟨0, 0⟩] ["d.cs"], []⟩ [7, 2, 4, 1]⟩
    let placeholder : ResolvedType := ⟨3, ⟨"", "X", 0⟩, .unknown .cycle⟩
    (store.closure foreign).map ResolvedType.id = [2, 4, 1, 3, 0] ∧ store.get? 7 = none ∧
    placeholder ∈ store.closure foreign ∧ store.get? 3 = some placeholder ∧
    ∃ n, store.Way foreign n 3 := by
  intro store foreign placeholder
  obtain ⟨harena, -, hways, -⟩ := closure_is_breadth_first .tower [.allTypes] foreign
  have hids : (store.closure foreign).map ResolvedType.id = [2, 4, 1, 3, 0] := by decide +kernel
  have hmem : placeholder ∈ store.closure foreign := by decide +kernel
  exact ⟨hids, by decide +kernel, hmem, (harena _ hmem).1, (hways 3).1 (hids ▸ by decide)⟩

end TypeCatalog
