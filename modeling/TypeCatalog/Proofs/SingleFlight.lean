import Mathlib.Data.Set.Card
import TypeCatalog.Proofs.Laziness
import TypeCatalog.Proofs.Permanence

/-!
# The course of a look-up

A look-up goes through finitely many machines; the number of declared links bounds how many. All
along, each frame has a key of its own that is not settled, and the key that was asked for leads to
it, so that there are no more frames than keys it leads to. A frame is opened for a key that is
neither open nor settled, and from then on the key is one or the other. So no key is opened twice in
the whole history of a compilation.
-/

namespace TypeCatalog

namespace Machine

variable {c : Catalog} {m m' : Machine}

/-- The machines that a run goes through, from this one to the one that ends it. -/
def course (c : Catalog) (m : Machine) : List Machine :=
  match _h : step c m with
  | .running m' => m :: course c m'
  | .finished _ _ => [m]
termination_by work c m
decreasing_by exact work_step ‹_›

theorem course_of_running (h : step c m = .running m') : course c m = m :: course c m' := by
  rw [course]
  split <;> simp_all

theorem course_of_finished {t : ResolvedType} {r : Resolver} (h : step c m = .finished t r) :
    course c m = [m] := by
  rw [course]
  split <;> simp_all

theorem head?_course (c : Catalog) (m : Machine) : (course c m).head? = some m := by
  cases h : step c m with
  | running m' => rw [course_of_running h, List.head?_cons]
  | finished t r => rw [course_of_finished h, List.head?_cons]

/-- A course goes from each machine to the next by a move. -/
theorem isChain_course (c : Catalog) (m : Machine) : (course c m).IsChain (Move c) := by
  induction m using course.induct c with
  | case1 m m' h ih =>
    obtain ⟨rest, hrest⟩ := List.head?_eq_some_iff.1 (head?_course c m')
    rw [course_of_running h]
    rw [hrest] at ih ⊢
    exact List.isChain_cons_cons.2 ⟨step_eq_running_iff.1 h, ih⟩
  | case2 m t r h =>
    rw [course_of_finished h]
    exact .singleton m

/-- The last step of a course gives the answer of the run. -/
theorem exists_getLast?_course (c : Catalog) (m : Machine) :
    ∃ last ∈ (course c m).getLast?, step c last = .finished (run c m).1 (run c m).2 := by
  induction m using course.induct c with
  | case1 m m' h ih =>
    obtain ⟨last, hlast, hstep⟩ := ih
    refine ⟨last, ?_, by rwa [run_of_running h]⟩
    rw [course_of_running h, List.getLast?_cons, Option.mem_def.1 hlast]
    rfl
  | case2 m t r h =>
    refine ⟨m, ?_, by rw [run_of_finished h, h]⟩
    rw [course_of_finished h]
    rfl

/-- The bound on the steps to come is one. -/
theorem length_course_le (c : Catalog) (m : Machine) : (course c m).length ≤ work c m + 1 := by
  induction m using course.induct c with
  | case1 m m' h ih =>
    have hwork := work_step h
    rw [course_of_running h, List.length_cons]
    omega
  | case2 m t r h =>
    rw [course_of_finished h, List.length_singleton]
    omega

/-- What every move keeps holds all along. -/
theorem forall_mem_course {P : Machine → Prop} (hmove : ∀ {m m'}, Move c m m' → P m → P m')
    (h : P m) : ∀ m' ∈ course c m, P m' := by
  induction m using course.induct c with
  | case1 m m' hstep ih =>
    rw [course_of_running hstep]
    exact List.forall_mem_cons.2 ⟨h, ih (hmove (step_eq_running_iff.1 hstep) h)⟩
  | case2 m t r hstep =>
    rw [course_of_finished hstep]
    exact List.forall_mem_singleton.2 h

theorem debt_unused (c : Catalog) :
    debt c (fun _ => false) = 2 * (c.visibleKeys.flatMap c.links).length := by
  unfold debt
  induction c.visibleKeys with
  | nil => rfl
  | cons k ks ih =>
    rw [budget_cons, ih, List.flatMap_cons, List.length_append]
    simp only [Bool.false_eq_true, if_false]
    omega

/-- A look-up takes two steps at most for each declared link. -/
theorem length_course_openKey_le (c : Catalog) {s : Store} {k : TypeKey} (hk : s.find? k = none) :
    (course c (openKey c s ∅ k [])).length ≤
      2 * (c.visibleKeys.flatMap c.links).length + 1 := by
  have hlength := length_course_le c (openKey c s ∅ k [])
  have hpaid : debt c (isUsed (openKey c s ∅ k []).store (openKey c s ∅ k []).opened) +
      2 * (c.links k).length ≤ debt c (isUsed s ∅) :=
    debt_add_le c (fun _ => isUsed_openKey c _) (by simp [isUsed, hk]) (by simp [isUsed, openKey])
  have hall : debt c (isUsed s ∅) ≤ debt c (fun _ => false) := debt_le c fun _ h => by cases h
  have hwork : work c (openKey c s ∅ k []) ≤ debt c (isUsed s ∅) := by
    simp only [work, openKey_eq, backlog] at hpaid ⊢
    omega
  rw [debt_unused] at hall
  omega

/-- Between two steps of the look-up of a key. -/
structure SingleFlight (c : Catalog) (k : TypeKey) (m : Machine) : Prop where
  nodup : m.keys.Nodup
  mem_opened_iff : ∀ j, j ∈ m.opened ↔ j ∈ m.keys
  unsettled : ∀ j ∈ m.keys, m.store.find? j = none
  depth_le : m.keys.length ≤ {j | c.Reaches k j}.ncard

end Machine

/-- A key leads to itself and to keys that visible keys have links to. -/
theorem Catalog.finite_reaches (c : Catalog) (k : TypeKey) : {j | c.Reaches k j}.Finite := by
  refine (k :: c.visibleKeys.flatMap fun i => (c.links i).map BaseLink.key).finite_toSet.subset ?_
  intro j hj
  rcases Relation.ReflTransGen.cases_tail hj with rfl | ⟨i, -, hl⟩
  · exact List.mem_cons_self
  · exact List.mem_cons_of_mem _ (List.mem_flatMap.2 ⟨i, mem_visibleKeys_of_linksTo hl, hl⟩)

namespace Machine

variable {c : Catalog} {m m' : Machine}

theorem singleFlight {s : Store} {k : TypeKey} (hm : Underway c s k m) (hw : Within c s k m) :
    SingleFlight c k m where
  nodup := hm.sound.tracked.nodup
  mem_opened_iff := hm.sound.tracked.tracks
  unsettled := hm.sound.unsettled
  depth_le := by
    have hsub : (m.keys.toFinset : Set TypeKey) ⊆ {j | c.Reaches k j} := fun j hj =>
      hw.frames j (by simpa using hj)
    have hle := Set.ncard_le_ncard hsub (c.finite_reaches k)
    rwa [Set.ncard_coe_finset, List.toFinset_card_of_nodup hm.sound.tracked.nodup] at hle

/-- The key of the frame that the next step puts on top of all others, if it does. -/
def entering (c : Catalog) (m : Machine) : Option TypeKey :=
  match step c m with
  | .running m' => if m'.keys.length = m.keys.length + 1 then m'.keys.head? else none
  | .finished _ _ => none

theorem entering_of_move (h : Move c m m') :
    entering c m = if m'.keys.length = m.keys.length + 1 then m'.keys.head? else none := by
  rw [entering, step_eq_running_iff.2 h]

theorem entering_of_finished {t : ResolvedType} {r : Resolver} (h : step c m = .finished t r) :
    entering c m = none := by
  rw [entering, h]

theorem isUsed_iff {s : Store} {o : Std.TreeSet TypeKey} {k : TypeKey} :
    isUsed s o k ↔ k ∈ o ∨ (s.find? k).isSome := by
  rw [isUsed, Bool.or_eq_true, Std.TreeSet.mem_iff_contains]

/-- The closing of a frame settles its key, which was open before. -/
theorem isUsed_close_iff {s : Store} {o : Std.TreeSet TypeKey} {t : ResolvedType}
    (ht : t.key ∈ o) (j : TypeKey) :
    isUsed ((s.push t).settle t) (o.erase t.key) j ↔ isUsed s o j := by
  rw [isUsed_iff, isUsed_iff, Std.TreeSet.mem_erase, Store.find?_settle, Store.find?_push, ne_eq,
    Std.LawfulEqOrd.compare_eq_iff_eq]
  by_cases hj : t.key = j
  · subst hj
    simp [ht]
  · simp [hj]

/-- The key of a frame that a step puts on top was neither open nor settled. -/
theorem not_isUsed_of_entering {k : TypeKey} (hk : entering c m = some k) :
    ¬ isUsed m.store m.opened k := by
  cases hs : step c m with
  | finished t r => cases (entering_of_finished hs).symm.trans hk
  | running m' =>
    have hm := step_eq_running_iff.1 hs
    rw [entering_of_move hm] at hk
    -- only one kind of move adds a frame
    cases hm with
    | resume => simp [keys] at hk
    | cycle => simp [keys, breakCycle] at hk
    | reuse => simp [keys, reuse] at hk
    | enter s o k' d bound link links waiting ho hnone =>
      rw [openKey_eq, if_pos (by simp [keys])] at hk
      obtain rfl : link.key = k := Option.some.inj hk
      simp [isUsed_iff, ho, hnone]

/-- A move uses the key of the frame that it puts on top, and no other. -/
theorem isUsed_move_iff (h : Move c m m') (hm : m.Tracked) (j : TypeKey) :
    isUsed m'.store m'.opened j ↔ isUsed m.store m.opened j ∨ entering c m = some j := by
  have he := entering_of_move h
  cases h with
  | resume s o f parent link waiting hf =>
    have hopen : f.key ∈ o := (hm.tracks f.key).2 List.mem_cons_self
    rw [he, if_neg (by simp [keys]), isUsed_congr (find?_reportMissing _ _ _ _)]
    simpa using isUsed_close_iff (t := s.next f.key f.binding) hopen j
  | cycle s o k d bound link links waiting ho =>
    rw [he, if_neg (by simp [keys, breakCycle])]
    exact (or_iff_left (by simp)).symm
  | reuse s o k d bound link links waiting t ho ht =>
    rw [he, if_neg (by simp [keys, reuse]), reuse, isUsed_congr (find?_reportMissing _ _ _ _)]
    exact (or_iff_left (by simp)).symm
  | enter s o k d bound link links waiting ho hs =>
    rw [he, openKey_eq, if_pos (by simp [keys])]
    simp only [isUsed_iff, Store.find?_reportAll, Store.find?_miss, Std.TreeSet.mem_insert,
      Std.LawfulEqOrd.compare_eq_iff_eq, keys, List.head?_cons, Option.some.injEq]
    tauto

/-- The keys that a run opens frames for, in their order. -/
def entered (c : Catalog) (m : Machine) : List TypeKey :=
  (course c m).filterMap (entering c)

/-- A run opens each frame for another key that was not used before, and uses no other key. -/
theorem entered_spec (hm : m.Tracked) : (entered c m).Nodup ∧
    (∀ j ∈ entered c m, ¬ isUsed m.store m.opened j) ∧
    ∀ j, isUsed (run c m).2.store (run c m).2.opened j ↔
      isUsed m.store m.opened j ∨ j ∈ entered c m := by
  unfold entered
  induction m using course.induct c with
  | case1 m m' h ih =>
    have hmove := step_eq_running_iff.1 h
    have hused := isUsed_move_iff hmove hm
    obtain ⟨hnodup, hfresh, hrun⟩ := ih (tracked_move hmove hm)
    have hstay : ∀ j ∈ (course c m').filterMap (entering c), ¬ isUsed m.store m.opened j :=
      fun j hj hu => hfresh j hj ((hused j).2 (.inl hu))
    rw [course_of_running h, run_of_running h]
    cases he : entering c m with
    | none =>
      rw [List.filterMap_cons_none he]
      refine ⟨hnodup, hstay, fun j => ?_⟩
      rw [hrun, hused, he]
      simp
    | some k =>
      have hk : k ∉ (course c m').filterMap (entering c) :=
        fun hk => hfresh k hk ((hused k).2 (.inr he))
      rw [List.filterMap_cons_some he]
      refine ⟨List.nodup_cons.2 ⟨hk, hnodup⟩,
        List.forall_mem_cons.2 ⟨not_isUsed_of_entering he, hstay⟩, fun j => ?_⟩
      rw [hrun, hused, he, List.mem_cons, or_assoc, Option.some.injEq, @eq_comm _ k j]
  | case2 m t r h =>
    obtain ⟨s, o, f, hf, rfl⟩ := exists_of_step_eq_finished h
    have hnone : entering c ⟨s, o, f, []⟩ = none := entering_of_finished h
    have hopen : f.key ∈ o := (hm.tracks f.key).2 List.mem_cons_self
    rw [course_of_finished h, List.filterMap_cons_none hnone, run_of_last hf]
    refine ⟨List.nodup_nil, fun j hj => absurd hj List.not_mem_nil, fun j => ?_⟩
    exact (isUsed_close_iff (t := s.next f.key f.binding) hopen j).trans (by simp)

end Machine

namespace Store

variable {c : Catalog} {s s' s'' : Store}

/-- On the way from one store to another frames were opened for these keys: for none twice and for
none that was settled before, and exactly these keys were settled. -/
structure Opened (s : Store) (ks : List TypeKey) (s' : Store) : Prop where
  nodup : ks.Nodup
  unsettled : ∀ k ∈ ks, s.find? k = none
  settled_iff : ∀ k, (s'.find? k).isSome ↔ (s.find? k).isSome ∨ k ∈ ks

theorem Opened.of_find?_eq (h : s'.find? = s.find?) : Opened s [] s' where
  nodup := List.nodup_nil
  unsettled k hk := absurd hk List.not_mem_nil
  settled_iff k := by simp [h]

theorem Opened.append {ks ks' : List TypeKey} (h : Opened s ks s') (h' : Opened s' ks' s'') :
    Opened s (ks ++ ks') s'' where
  nodup := by
    refine List.nodup_append'.2 ⟨h.nodup, h'.nodup, fun k hk hk' => ?_⟩
    have hsome := (h.settled_iff k).2 (.inr hk)
    simp [h'.unsettled k hk'] at hsome
  unsettled k hk := by
    rcases List.mem_append.1 hk with hk | hk
    · exact h.unsettled k hk
    · have hnone : ¬ (s'.find? k).isSome := by simp [h'.unsettled k hk]
      have hbefore : ¬ (s.find? k).isSome := fun hs => hnone ((h.settled_iff k).2 (.inl hs))
      simpa using hbefore
  settled_iff k := by rw [h'.settled_iff, h.settled_iff, List.mem_append, or_assoc]

/-- The keys that the look-up of a key opens frames for, in their order. -/
def openings (c : Catalog) (s : Store) (k : TypeKey) : List TypeKey :=
  match s.find? k with
  | some _ => []
  | none => k :: Machine.entered c (Machine.openKey c s ∅ k [])

theorem opened_resolve (c : Catalog) (s : Store) (k : TypeKey) :
    Opened s (s.openings c k) (s.resolve c k).2 := by
  unfold openings
  cases hs : s.find? k with
  | some t =>
    rw [resolve_of_settled c hs]
    exact .of_find?_eq (find?_hit s)
  | none =>
    have htracked : (Machine.openKey c s ∅ k []).Tracked :=
      Machine.tracked_openKey c s tracks_empty List.nodup_nil Std.TreeSet.not_mem_emptyc
    have hused : ∀ j, Machine.isUsed (Machine.openKey c s ∅ k []).store
        (Machine.openKey c s ∅ k []).opened j ↔ j = k ∨ (s.find? j).isSome := by
      intro j
      rw [Machine.openKey_eq, Machine.isUsed_iff, Store.find?_reportAll, find?_miss,
        Std.TreeSet.mem_insert, Std.LawfulEqOrd.compare_eq_iff_eq, @eq_comm _ k j]
      simp only [Std.TreeSet.not_mem_emptyc, or_false]
    obtain ⟨hnodup, hfresh, hrun⟩ := Machine.entered_spec (c := c) htracked
    have hend := Resolver.opened_resolve c s k
    rw [Resolver.resolve_of_unsettled c hs] at hend
    simp only [hused, hend, Machine.isUsed_iff, Std.TreeSet.not_mem_emptyc, false_or,
      not_or] at hfresh hrun
    rw [Store.resolve, Resolver.resolve_of_unsettled c hs]
    constructor
    · exact List.nodup_cons.2 ⟨fun hk => (hfresh k hk).1 rfl, hnodup⟩
    · exact List.forall_mem_cons.2 ⟨hs, fun j hj => by simpa using (hfresh j hj).2⟩
    · intro j
      rw [hrun, List.mem_cons]
      tauto

/-- The keys that look-ups one after the other open frames for. -/
def openingsAll (c : Catalog) (s : Store) : List TypeKey → List TypeKey
  | [] => []
  | k :: ks => s.openings c k ++ openingsAll c (s.resolve c k).2 ks

theorem opened_resolveAll (c : Catalog) (s : Store) (ks : List TypeKey) :
    Opened s (s.openingsAll c ks) (s.resolveAll c ks).2 := by
  induction ks generalizing s with
  | nil => exact .of_find?_eq rfl
  | cons k ks ih =>
    rw [resolveAll_cons]
    exact (opened_resolve c s k).append (ih _)

/-- A resolver that has looked up keys one after the other has left none open. -/
theorem opened_foldl_extend (c : Catalog) (found : Array ResolvedType) (s : Store)
    (ks : List TypeKey) : (ks.foldl (Resolver.extend c) (found, ⟨s, ∅⟩)).2.opened = ∅ := by
  induction ks generalizing found s with
  | nil => rfl
  | cons k ks ih =>
    rw [List.foldl_cons, extend_eq]
    exact ih _ _

/-- The machines that the look-up of a key goes through which is not settled. -/
structure GoesThrough (c : Catalog) (s : Store) (k : TypeKey) (ms : List Machine) : Prop where
  first : ms.head? = some (Machine.openKey c s ∅ k [])
  moves : ms.IsChain (Machine.Move c)
  last : ∃ m ∈ ms.getLast?, Machine.step c m =
    .finished (Resolver.resolve c ⟨s, ∅⟩ k).1 (Resolver.resolve c ⟨s, ∅⟩ k).2
  length_le : ms.length ≤ 2 * (c.visibleKeys.flatMap c.links).length + 1
  singleFlight : ∀ m ∈ ms, m.SingleFlight c k

theorem Consistent.goesThrough (h : s.Consistent c ∅) {k : TypeKey} (hk : s.find? k = none) :
    s.GoesThrough c k (Machine.course c (Machine.openKey c s ∅ k [])) where
  first := Machine.head?_course c _
  moves := Machine.isChain_course c _
  last := by
    rw [Resolver.resolve_of_unsettled c hk]
    exact Machine.exists_getLast?_course c _
  length_le := Machine.length_course_openKey_le c hk
  singleFlight := by
    have hmove : ∀ {m m'}, Machine.Move c m m' →
        Machine.Underway c s k m ∧ Machine.Within c s k m →
          Machine.Underway c s k m' ∧ Machine.Within c s k m' :=
      fun hm hi => ⟨Machine.underway_move hm hi.1, Machine.within_move hm hi.1.sound hi.2⟩
    intro m hm
    obtain ⟨hunderway, hwithin⟩ := Machine.forall_mem_course hmove
      ⟨Machine.underway_openKey h hk, Machine.within_openKey c s k⟩ m hm
    exact Machine.singleFlight hunderway hwithin

end Store

namespace Compilation

/-- The keys that a history opens frames for, from the first query to the last. -/
def openings (c : Compilation) : List Query → List TypeKey
  | [] => []
  | q :: qs => c.store.openingsAll c.catalog (c.lookedUp q) ++ openings (c.ask q).2 qs

theorem opened_after (c : Compilation) (qs : List Query) :
    c.store.Opened (c.openings qs) (c.after qs).store := by
  induction qs generalizing c with
  | nil => exact .of_find?_eq rfl
  | cons q qs ih =>
    have hask := Store.opened_resolveAll c.catalog c.store (c.lookedUp q)
    have hstore : (c.store.resolveAll c.catalog (c.lookedUp q)).2 = (c.ask q).2.store := by
      rw [ask_eq]
    rw [hstore] at hask
    exact hask.append (ih (c.ask q).2)

end Compilation

/-- In every history the look-up of a key that is not settled ends after finitely many moves; the
declared links bound their number. After each move the open keys are the keys of the frames, each of
one frame, none of them is settled, and there are no more than the key leads to. Whatever keys a
query looks up, it leaves none open. A history opens one frame for each key that is settled at its
end, and no other frame. -/
theorem look_up_is_single_flight (s : Snapshot) (qs : List Query) :
    let catalog := Catalog.ofProject s.project
    let c := (Compilation.create s).after qs
    (∀ k, c.store.find? k = none → c.store.GoesThrough catalog k
      (Machine.course catalog (Machine.openKey catalog c.store ∅ k []))) ∧
    (∀ ks : List TypeKey, (ks.foldl (Resolver.extend catalog) (#[], ⟨c.store, ∅⟩)).2.opened = ∅) ∧
    ((Compilation.create s).openings qs).Nodup ∧
    ∀ k, k ∈ (Compilation.create s).openings qs ↔ (c.store.find? k).isSome := by
  intro catalog c
  have h := (Compilation.reached_after s qs).consistent
  have hopened := (Compilation.create s).opened_after qs
  refine ⟨fun k hk => h.goesThrough hk, Store.opened_foldl_extend catalog #[] c.store,
    hopened.nodup, fun k => ?_⟩
  have hnone : (Compilation.create s).store.find? k = none := by
    simp [Compilation.create, Store.find?]
  rw [hopened.settled_iff k, hnone]
  exact (or_iff_right Bool.false_ne_true).symm

/-- Of two classes that inherit from each other the second has a frame above that of the first. -/
theorem look_up_is_single_flight_loop :
    let catalog := Catalog.ofProject Snapshot.loop.project
    let c := (Compilation.create .loop).after [.resolve ⟨"", "Other", 0⟩]
    let course := Machine.course catalog (Machine.openKey catalog c.store ∅ ⟨"", "A", 0⟩ [])
    c.store.find? ⟨"", "A", 0⟩ = none ∧ c.store.GoesThrough catalog ⟨"", "A", 0⟩ course ∧
    ∃ m ∈ course, m.keys = [⟨"", "B", 0⟩, ⟨"", "A", 0⟩] ∧ m.SingleFlight catalog ⟨"", "A", 0⟩ := by
  intro catalog c course
  have hk : c.store.find? ⟨"", "A", 0⟩ = none := by decide +kernel
  have hcourse : c.store.GoesThrough catalog ⟨"", "A", 0⟩ course :=
    (look_up_is_single_flight .loop [.resolve ⟨"", "Other", 0⟩]).1 _ hk
  have hkeys : (course.map Machine.keys)[1]? = some [⟨"", "B", 0⟩, ⟨"", "A", 0⟩] := by
    decide +kernel
  obtain ⟨m, hm, hmkeys⟩ := List.mem_map.1 (List.mem_of_getElem? hkeys)
  exact ⟨hk, hcourse, m, hm, hmkeys, hcourse.singleFlight m hm⟩

/-- A check that follows opens no frame for the keys that the class has settled. -/
example : (Compilation.create .loop).openings [.resolve ⟨"", "A", 0⟩, .checkAll] =
    [⟨"", "A", 0⟩, ⟨"", "B", 0⟩] := by
  decide +kernel

end TypeCatalog
