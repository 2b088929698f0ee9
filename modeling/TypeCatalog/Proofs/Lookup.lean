import TypeCatalog.Proofs.Consistency
import TypeCatalog.Proofs.History

/-!
# What a look-up leaves behind

The invariant of a look-up ties the stack of frames, the open keys and the store together: each
frame has bound the first of its links and has the others still before it, each waiting frame waits
for the key of the frame above it, no key of a frame is settled, and the store is consistent with
the open keys. Every move keeps it. So a look-up turns a consistent store without open keys into
another one, in which the key it was asked for is settled.
-/

namespace TypeCatalog

namespace Machine

/-- A frame that has bound all links of its key but the given last ones. -/
structure Fits (c : Catalog) (s : Store) (f : Frame) (links : List BaseLink) : Prop where
  definition : f.definition? = (c.outline? f.key).map Outline.definition
  bound : ∃ done, c.links f.key = done ++ links ∧
    List.Forall₂ (s.Bound c f.key) done f.bound.toList

/-- The frames that wait, from the one that waits for this key down to the first. -/
def Awaits (c : Catalog) (s : Store) : TypeKey → List Waiting → Prop
  | _, [] => True
  | k, w :: waiting =>
    w.link.key = k ∧ Fits c s w.frame (w.link :: w.frame.pending) ∧ Awaits c s w.frame.key waiting

structure Sound (c : Catalog) (m : Machine) : Prop where
  tracked : m.Tracked
  unsettled : ∀ k ∈ m.keys, m.store.find? k = none
  consistent : m.store.Consistent c m.opened
  current : Fits c m.store m.current m.current.pending
  waiting : Awaits c m.store m.current.key m.waiting

theorem Fits.mono {c : Catalog} {s s' : Store} (hg : s.Grows s') {f : Frame}
    {links : List BaseLink} (h : Fits c s f links) : Fits c s' f links := by
  obtain ⟨done, hd, hb⟩ := h.bound
  exact ⟨h.definition, done, hd, Store.forall₂_bound_mono hg hb⟩

theorem Awaits.mono {c : Catalog} {s s' : Store} (hg : s.Grows s') {k : TypeKey}
    {waiting : List Waiting} (h : Awaits c s k waiting) : Awaits c s' k waiting := by
  induction waiting generalizing k with
  | nil => trivial
  | cons w waiting ih => exact ⟨h.1, h.2.1.mono hg, ih h.2.2⟩

/-- The next link of a frame is bound. -/
theorem Fits.bind {c : Catalog} {s : Store} {f : Frame} {link : BaseLink} {links : List BaseLink}
    (h : Fits c s f (link :: links)) {t : ResolvedType} (ht : s.Bound c f.key link t.id) :
    Fits c s (f.bind t) links := by
  obtain ⟨done, hd, hb⟩ := h.bound
  refine ⟨h.definition, done ++ [link], by simpa [Frame.bind] using hd, ?_⟩
  rw [Frame.bind, Array.toList_push]
  exact List.rel_append hb (.cons ht .nil)

theorem Fits.linksTo {c : Catalog} {s : Store} {f : Frame} {link : BaseLink}
    {links : List BaseLink} (h : Fits c s f (link :: links)) : c.LinksTo f.key link.key := by
  obtain ⟨done, hd, -⟩ := h.bound
  rw [Catalog.LinksTo, hd]
  exact List.mem_map_of_mem (List.mem_append_right _ List.mem_cons_self)

theorem Fits.with_pending {c : Catalog} {s : Store} {k : TypeKey} {d : Option Definition}
    {bound : Array TypeId} {pending pending' links : List BaseLink}
    (h : Fits c s ⟨k, d, bound, pending⟩ links) : Fits c s ⟨k, d, bound, pending'⟩ links :=
  ⟨h.definition, h.bound⟩

/-- All links of a frame without links left are bound, in the order of the links. -/
theorem Fits.bound_all {c : Catalog} {s : Store} {f : Frame} (h : Fits c s f []) :
    List.Forall₂ (s.Bound c f.key) (c.links f.key) f.bound.toList := by
  obtain ⟨done, hd, hb⟩ := h.bound
  rwa [hd, List.append_nil]

theorem Fits.binding_eq {c : Catalog} {s : Store} {f : Frame} {links : List BaseLink}
    (h : Fits c s f links) : f.binding = c.binding f.key f.bound.toList := by
  obtain ⟨k, d, bound, pending⟩ := f
  obtain rfl : d = (c.outline? k).map Outline.definition := h.definition
  exact Machine.binding_eq c k bound pending

/-- Each frame that waits leads to the key it waits for, directly or not. -/
theorem Awaits.reaches {c : Catalog} {s : Store} {k : TypeKey} {waiting : List Waiting}
    (h : Awaits c s k waiting) {j : TypeKey} (hj : j ∈ waiting.map (·.frame.key)) :
    c.Reaches j k := by
  induction waiting generalizing k with
  | nil => cases hj
  | cons w waiting ih =>
    obtain ⟨rfl, hf, hw⟩ := h
    rcases List.mem_cons.1 hj with rfl | hj
    · exact .single hf.linksTo
    · exact (ih hw hj).tail hf.linksTo

/-- Every open key leads to the key of the current frame. -/
theorem Sound.reaches {c : Catalog} {m : Machine} (h : Sound c m) {k : TypeKey}
    (hk : k ∈ m.opened) : c.Reaches k m.current.key := by
  rcases List.mem_cons.1 ((h.tracked.tracks k).1 hk) with rfl | hk
  · exact .refl
  · exact h.waiting.reaches hk

/-- A key that is neither open nor settled is opened. -/
theorem sound_openKey {c : Catalog} {s : Store} {o : Std.TreeSet TypeKey} {k : TypeKey}
    {waiting : List Waiting} (ho : Tracks o (waiting.map (·.frame.key)))
    (hn : (waiting.map (·.frame.key)).Nodup)
    (hu : ∀ j ∈ waiting.map (·.frame.key), s.find? j = none) (hc : s.Consistent c o)
    (hw : Awaits c s k waiting) (hk : k ∉ o) (hs : s.find? k = none) :
    Sound c (openKey c s o k waiting) := by
  have ht := tracked_openKey c s ho hn hk
  rw [openKey_eq] at ht ⊢
  constructor
  · exact ht
  · intro j hj
    rw [Store.find?_reportAll, Store.find?_miss]
    rcases List.mem_cons.1 hj with rfl | hj
    · exact hs
    · exact hu j hj
  · exact hc.congr (fun j hj => Std.TreeSet.mem_insert.2 (.inr hj)) (by simp) (by simp)
  · exact ⟨rfl, [], rfl, .nil⟩
  · exact hw.mono ((Store.Grows.miss s).trans (.reportAll _ _))

theorem sound_move {c : Catalog} {m m' : Machine} (h : Move c m m') (hm : Sound c m) :
    Sound c m' := by
  have hg := grows_move h (hm.unsettled _ List.mem_cons_self)
  have ht := tracked_move h hm.tracked
  cases h with
  | resume s o f parent link waiting hf =>
    have hfit : Fits c s f [] := hf ▸ hm.current
    have hlink : link.key = f.key := hm.waiting.1
    have hparent : Fits c s parent (link :: parent.pending) := hm.waiting.2.1
    have hc := hm.consistent.settle_next (hm.unsettled _ List.mem_cons_self) hfit.bound_all
    rw [← hfit.binding_eq] at hc
    refine ⟨ht, ?_, hc.congr (fun _ => id) (by simp) (by simp), ?_, hm.waiting.2.2.mono hg⟩
    · -- the key of the closed frame is no key of a frame any more
      intro j hj
      have hne : f.key ≠ j := fun he => (List.nodup_cons.1 hm.tracked.nodup).1 (he ▸ hj)
      simpa [hne] using hm.unsettled j (List.mem_cons_of_mem _ hj)
    · have hfind : ((s.push (s.next f.key f.binding)).settle (s.next f.key f.binding)).find?
          link.key = some (s.next f.key f.binding) := by simp [hlink]
      have hb := hc.bound_of_find? (k := parent.key) hfind
      exact (hparent.mono hg).bind (hb.mono (.reportMissing _ _ _ _))
  | cycle s o k d bound link links waiting ho =>
    have hl : c.LinksTo k link.key := hm.current.linksTo
    have hr : c.Reaches link.key k := hm.reaches ho
    have hs : (s.report ⟨link.file, k, .circularBase link.key⟩).Consistent c o :=
      hm.consistent.congr (fun _ => id) rfl rfl
    refine ⟨ht, hm.unsettled, hs.push_placeholder ho hl hr, ?_, hm.waiting.mono hg⟩
    refine (hm.current.mono hg).with_pending.bind
      ⟨s.next link.key (.unknown .cycle), ?_, rfl, .inr ⟨rfl, hr⟩⟩
    simp [breakCycle, Store.next]
  | reuse s o k d bound link links waiting t ho hfind =>
    have hs : s.hit.Consistent c o := hm.consistent.congr (fun _ => id) rfl rfl
    refine ⟨ht, ?_, hs.congr (fun _ => id) (by simp [reuse]) (by simp [reuse]), ?_,
      hm.waiting.mono hg⟩
    · intro j hj
      simpa [reuse] using hm.unsettled j hj
    · have hb := hs.bound_of_find? (k := k) hfind
      exact (hm.current.mono hg).with_pending.bind (hb.mono (.reportMissing _ _ _ _))
  | enter s o k d bound link links waiting ho hs =>
    have hw : Awaits c s link.key (⟨⟨k, d, bound, links⟩, link⟩ :: waiting) :=
      ⟨rfl, hm.current.with_pending, hm.waiting⟩
    exact sound_openKey hm.tracked.tracks hm.tracked.nodup hm.unsettled hm.consistent hw ho hs

/-- The first frame stays at the bottom of the stack. -/
theorem getLast?_keys_move {c : Catalog} {m m' : Machine} (h : Move c m m') :
    m'.keys.getLast? = m.keys.getLast? := by
  cases h with
  | resume s o f parent link waiting hf => simp [keys, Frame.bind]
  | cycle s o k d bound link links waiting ho => simp [keys, breakCycle, Frame.bind]
  | reuse s o k d bound link links waiting t ho ht => simp [keys, reuse, Frame.bind]
  | enter s o k d bound link links waiting ho hs => simp [keys, openKey_eq]

/-- In the middle of the look-up of a key that began with a store. -/
structure Underway (c : Catalog) (s : Store) (k : TypeKey) (m : Machine) : Prop where
  sound : m.Sound c
  first : m.keys.getLast? = some k
  grows : s.Grows m.store

theorem underway_openKey {c : Catalog} {s : Store} (h : s.Consistent c ∅) {k : TypeKey}
    (hk : s.find? k = none) : Underway c s k (openKey c s ∅ k []) where
  sound := sound_openKey tracks_empty List.nodup_nil (by simp) h trivial (by simp) hk
  first := by simp [keys, openKey_eq]
  grows := by
    rw [openKey_eq]
    exact (Store.Grows.miss s).trans (.reportAll _ _)

theorem underway_move {c : Catalog} {s : Store} {k : TypeKey} {m m' : Machine} (h : Move c m m')
    (hm : Underway c s k m) : Underway c s k m' where
  sound := sound_move h hm.sound
  first := (getLast?_keys_move h).trans hm.first
  grows := hm.grows.trans (grows_move h (hm.sound.unsettled _ List.mem_cons_self))

end Machine

namespace Store

/-- A look-up that is given a consistent store without open keys. -/
structure Answers (c : Catalog) (s : Store) (k : TypeKey) (t : ResolvedType) (s' : Store) :
    Prop where
  consistent : s'.Consistent c ∅
  grows : s.Grows s'
  find? : s'.find? k = some t

/-- A look-up ends with the closing of the frame of its key, and what every move from a sound
machine keeps holds then. -/
theorem exists_last_frame {c : Catalog} {P : Machine → Prop}
    (hmove : ∀ {m m'}, Machine.Move c m m' → m.Sound c → P m → P m') {s : Store}
    (h : s.Consistent c ∅) {k : TypeKey} (hk : s.find? k = none)
    (hP : P (Machine.openKey c s ∅ k [])) :
    ∃ s' o f, f.pending = [] ∧ Machine.Underway c s k ⟨s', o, f, []⟩ ∧ P ⟨s', o, f, []⟩ ∧
      f.key = k ∧ s.resolve c k = (s'.next f.key f.binding,
        (s'.push (s'.next f.key f.binding)).settle (s'.next f.key f.binding)) := by
  have hstep : ∀ {m m'}, Machine.Move c m m' → Machine.Underway c s k m ∧ P m →
      Machine.Underway c s k m' ∧ P m' :=
    fun hm hi => ⟨Machine.underway_move hm hi.1, hmove hm hi.1.sound hi.2⟩
  obtain ⟨s', o, f, hf, ⟨hm, hp⟩, hrun⟩ :=
    Machine.run_ends hstep ⟨Machine.underway_openKey h hk, hP⟩
  refine ⟨s', o, f, hf, hm, hp, by simpa [Machine.keys] using hm.first, ?_⟩
  rw [Store.resolve, Resolver.resolve_of_unsettled c hk, hrun]

theorem Consistent.resolve {c : Catalog} {s : Store} (h : s.Consistent c ∅) (k : TypeKey) :
    s.Answers c k (s.resolve c k).1 (s.resolve c k).2 := by
  cases hs : s.find? k with
  | some t =>
    rw [resolve_of_settled c hs]
    exact ⟨h.congr (fun _ => id) rfl rfl, .hit s, hs⟩
  | none =>
    obtain ⟨s', o, f, hf, hm, -, rfl, hres⟩ :=
      exists_last_frame (P := fun _ => True) (fun _ _ _ => trivial) h hs trivial
    have hfit : Machine.Fits c s' f [] := hf ▸ hm.sound.current
    have hnone : s'.find? f.key = none := hm.sound.unsettled _ List.mem_cons_self
    have hc := hm.sound.consistent.settle_next hnone hfit.bound_all
    have ho : o.erase f.key = ∅ :=
      (hm.sound.tracked.tracks.erase (List.nodup_cons.1 hm.sound.tracked.nodup).1).eq_empty
    rw [← hfit.binding_eq] at hc
    rw [hres]
    exact ⟨ho ▸ hc, hm.grows.trans ((Grows.push s' _).trans (.settle hnone)), by simp⟩

/-- Look-ups of keys one after the other, given a consistent store without open keys. -/
structure AnswersAll (c : Catalog) (s : Store) (ks : List TypeKey) (ts : Array ResolvedType)
    (s' : Store) : Prop where
  consistent : s'.Consistent c ∅
  grows : s.Grows s'
  find? : ts.toList.map some = ks.map s'.find?

theorem Consistent.resolveAll {c : Catalog} {s : Store} (h : s.Consistent c ∅)
    (ks : List TypeKey) : s.AnswersAll c ks (s.resolveAll c ks).1 (s.resolveAll c ks).2 := by
  induction ks generalizing s with
  | nil => exact ⟨h, .refl s, rfl⟩
  | cons k ks ih =>
    have ha := h.resolve k
    have hrest := ih ha.consistent
    rw [resolveAll_cons]
    refine ⟨hrest.consistent, ha.grows.trans hrest.grows, ?_⟩
    simp [hrest.grows.find? ha.find?, hrest.find?]

/-- Keys that are looked up one after the other are all settled in the end. -/
theorem AnswersAll.isSome_find? {c : Catalog} {s s' : Store} {ks : List TypeKey}
    {ts : Array ResolvedType} (h : s.AnswersAll c ks ts s') {k : TypeKey} (hk : k ∈ ks) :
    (s'.find? k).isSome := by
  have hmem : s'.find? k ∈ ts.toList.map some := h.find? ▸ List.mem_map_of_mem hk
  obtain ⟨t, -, ht⟩ := List.mem_map.1 hmem
  rw [← ht]
  rfl

/-- Every type that was found is the one of its key. -/
theorem AnswersAll.find?_of_mem {c : Catalog} {s s' : Store} {ks : List TypeKey}
    {ts : Array ResolvedType} (h : s.AnswersAll c ks ts s') {t : ResolvedType}
    (ht : t ∈ ts.toList) : s'.find? t.key = some t := by
  have hmem : some t ∈ ks.map s'.find? := h.find? ▸ List.mem_map_of_mem ht
  obtain ⟨k, -, hk⟩ := List.mem_map.1 hmem
  rwa [(h.consistent.settled_iff.1 hk).1]

theorem Reached.consistent {c : Catalog} {s : Store} (h : s.Reached c) : s.Consistent c ∅ := by
  induction h with
  | empty => exact .empty c
  | resolve k _ ih => exact (ih.resolve k).consistent

end Store

namespace Compilation

theorem key_lookup {c : Compilation} (h : c.store.Reached c.catalog) (k : TypeKey) :
    (c.lookup k).1.key = k := by
  have ha := h.consistent.resolve k
  exact (ha.consistent.settled_iff.1 ha.find?).1

theorem grows_ask {c : Compilation} (h : c.store.Reached c.catalog) (q : Query) :
    c.store.Grows (c.ask q).2.store := by
  rw [ask_eq]
  exact (h.consistent.resolveAll _).grows

/-- Whatever is asked later, the store only grows. -/
theorem grows_after {c : Compilation} (h : c.store.Reached c.catalog) (qs : List Query) :
    c.store.Grows (c.after qs).store := by
  induction qs generalizing c with
  | nil => exact .refl _
  | cons q qs ih => exact (grows_ask h q).trans (ih (reached_ask h q))

theorem grows_after_append (s : Snapshot) (qs later : List Query) :
    ((create s).after qs).store.Grows ((create s).after (qs ++ later)).store := by
  rw [after_append]
  exact grows_after (reached_after_own s qs) later

theorem isSome_of_ask_checkAll {c : Compilation} (h : c.store.Reached c.catalog) {k : TypeKey}
    (hk : k ∈ c.catalog.visibleKeys) : ((c.ask .checkAll).2.store.find? k).isSome :=
  (h.consistent.resolveAll c.catalog.visibleKeys).isSome_find? hk

/-- A check settles every visible key, and whatever is asked later leaves them settled. -/
theorem isSome_of_checked (s : Snapshot) (qs later : List Query) :
    ∀ k ∈ (Catalog.ofProject s.project).visibleKeys,
      (((create s).after (qs ++ .checkAll :: later)).store.find? k).isSome := by
  have h := reached_after_own s qs
  have hg := grows_after (reached_ask h .checkAll) later
  intro k hk
  rw [after_append]
  exact hg.isSome_find? (isSome_of_ask_checkAll h (catalog_after s qs ▸ hk))

end Compilation
end TypeCatalog
