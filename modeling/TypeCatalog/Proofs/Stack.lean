import Mathlib.Data.List.Basic
import TypeCatalog.Compilation

/-!
# The stack of frames

What one step of a look-up can do, as an inductive relation, and the principle by which a property
that every move keeps holds when the look-up ends. The first such property: the open keys are the
keys of the frames, and no two frames have one key. So a look-up leaves no key open, and a resolver
that looks up many keys is the same as a fresh resolver for each of them.
-/

namespace TypeCatalog

/-- A set of open keys and a list of them have the same elements. -/
def Tracks (o : Std.TreeSet TypeKey) (opened : List TypeKey) : Prop :=
  ∀ k, k ∈ o ↔ k ∈ opened

theorem tracks_empty : Tracks ∅ [] := by
  intro k
  simp

theorem Tracks.insert {o : Std.TreeSet TypeKey} {opened : List TypeKey} (h : Tracks o opened)
    (k : TypeKey) : Tracks (o.insert k) (k :: opened) := by
  intro j
  rw [Std.TreeSet.mem_insert, Std.LawfulEqOrd.compare_eq_iff_eq, h j, List.mem_cons, eq_comm]

theorem Tracks.erase {o : Std.TreeSet TypeKey} {opened : List TypeKey} {k : TypeKey}
    (h : Tracks o (k :: opened)) (hk : k ∉ opened) : Tracks (o.erase k) opened := by
  intro j
  rw [Std.TreeSet.mem_erase, ne_eq, Std.LawfulEqOrd.compare_eq_iff_eq, h j, List.mem_cons]
  constructor
  · rintro ⟨hne, rfl | hmem⟩
    · exact absurd rfl hne
    · exact hmem
  · intro hmem
    exact ⟨fun he => hk (he ▸ hmem), .inr hmem⟩

theorem Tracks.eq_empty {o : Std.TreeSet TypeKey} (h : Tracks o []) : o = ∅ := by
  have he : o.isEmpty = true := by
    rw [Std.TreeSet.isEmpty_iff_forall_not_mem]
    intro k hk
    exact List.not_mem_nil ((h k).1 hk)
  obtain ⟨⟨⟨inner, wf⟩⟩⟩ := o
  cases inner with
  | leaf => rfl
  | inner => cases he

/-- What a key is bound to once the types of its links are known. -/
def Catalog.binding (c : Catalog) (k : TypeKey) (bases : List TypeId) : Binding :=
  match c.outline? k with
  | some o => .declared o.definition bases
  | none => .unknown .unresolved

namespace Machine

theorem binding_eq (c : Catalog) (k : TypeKey) (bound : Array TypeId) (links : List BaseLink) :
    Frame.binding ⟨k, (c.outline? k).map Outline.definition, bound, links⟩ =
      c.binding k bound.toList := by
  unfold Catalog.binding Frame.binding
  cases c.outline? k <;> rfl

/-- The keys of all frames, the current one first. -/
def keys (m : Machine) : List TypeKey :=
  m.current.key :: m.waiting.map (·.frame.key)

/-- The moves of a look-up that goes on after them. -/
inductive Move (c : Catalog) : Machine → Machine → Prop where
  /-- A frame without links left is closed, and its type is bound in the frame that waits for it. -/
  | resume (s : Store) (o : Std.TreeSet TypeKey) (f : Frame) (parent : Frame) (link : BaseLink)
      (waiting : List Waiting) (hf : f.pending = []) :
      Move c ⟨s, o, f, ⟨parent, link⟩ :: waiting⟩
        ⟨((s.push (s.next f.key f.binding)).settle (s.next f.key f.binding)).reportMissing
          parent.key link (s.next f.key f.binding), o.erase f.key,
          parent.bind (s.next f.key f.binding), waiting⟩
  | cycle (s : Store) (o : Std.TreeSet TypeKey) (k : TypeKey) (d : Option Definition)
      (bound : Array TypeId) (link : BaseLink) (links : List BaseLink) (waiting : List Waiting)
      (ho : link.key ∈ o) :
      Move c ⟨s, o, ⟨k, d, bound, link :: links⟩, waiting⟩
        (breakCycle s o ⟨k, d, bound, links⟩ waiting link)
  | reuse (s : Store) (o : Std.TreeSet TypeKey) (k : TypeKey) (d : Option Definition)
      (bound : Array TypeId) (link : BaseLink) (links : List BaseLink) (waiting : List Waiting)
      (t : ResolvedType) (ho : link.key ∉ o) (ht : s.find? link.key = some t) :
      Move c ⟨s, o, ⟨k, d, bound, link :: links⟩, waiting⟩
        (reuse s o ⟨k, d, bound, links⟩ waiting link t)
  | enter (s : Store) (o : Std.TreeSet TypeKey) (k : TypeKey) (d : Option Definition)
      (bound : Array TypeId) (link : BaseLink) (links : List BaseLink) (waiting : List Waiting)
      (ho : link.key ∉ o) (hs : s.find? link.key = none) :
      Move c ⟨s, o, ⟨k, d, bound, link :: links⟩, waiting⟩
        (openKey c s o link.key (⟨⟨k, d, bound, links⟩, link⟩ :: waiting))

theorem step_eq_close {c : Catalog} {s : Store} {o : Std.TreeSet TypeKey} {f : Frame}
    {waiting : List Waiting} (hf : f.pending = []) :
    step c ⟨s, o, f, waiting⟩ = close s o f waiting := by
  obtain ⟨k, d, bound, links⟩ := f
  cases hf
  rfl

theorem step_eq_running_iff {c : Catalog} {m m' : Machine} :
    step c m = .running m' ↔ Move c m m' := by
  constructor
  · intro h
    obtain ⟨s, o, ⟨k, d, bound, links⟩, waiting⟩ := m
    cases links with
    | nil =>
      cases waiting with
      | nil => cases h
      | cons w waiting =>
        cases h
        exact .resume s o _ w.frame w.link waiting rfl
    | cons link links =>
      simp only [step] at h
      split at h
      · cases h
        exact .cycle s o k d bound link links waiting ‹_›
      · rename_i ho
        split at h
        · cases h
          exact .reuse s o k d bound link links waiting _ ho ‹_›
        · cases h
          exact .enter s o k d bound link links waiting ho ‹_›
  · intro h
    cases h with
    | resume s o f parent link waiting hf => rw [step_eq_close hf, close]
    | cycle s o k d bound link links waiting ho => simp [step, ho]
    | reuse s o k d bound link links waiting t ho ht => simp [step, ho, ht]
    | enter s o k d bound link links waiting ho hs => simp [step, ho, hs]

theorem run_of_move {c : Catalog} {m m' : Machine} (h : Move c m m') : run c m = run c m' :=
  run_of_running (step_eq_running_iff.2 h)

theorem run_of_last {c : Catalog} {s : Store} {o : Std.TreeSet TypeKey} {f : Frame}
    (hf : f.pending = []) :
    run c ⟨s, o, f, []⟩ = (s.next f.key f.binding,
      ⟨(s.push (s.next f.key f.binding)).settle (s.next f.key f.binding), o.erase f.key⟩) :=
  run_of_finished (by rw [step_eq_close hf, close])

/-- Only the closing of the first frame ends a run. -/
theorem exists_of_step_eq_finished {c : Catalog} {m : Machine} {t : ResolvedType} {r : Resolver}
    (h : step c m = .finished t r) : ∃ s o f, f.pending = [] ∧ m = ⟨s, o, f, []⟩ := by
  obtain ⟨s, o, ⟨k, d, bound, links⟩, waiting⟩ := m
  cases links with
  | nil =>
    cases waiting with
    | nil => exact ⟨s, o, ⟨k, d, bound, []⟩, rfl, rfl⟩
    | cons w waiting => cases h
  | cons link links =>
    simp only [step] at h
    split at h
    · cases h
    · split at h <;> cases h

/-- What every move keeps holds of the last frame, whose type is the answer. -/
theorem run_ends {c : Catalog} {P : Machine → Prop}
    (hmove : ∀ {m m'}, Move c m m' → P m → P m') {m : Machine} (h : P m) :
    ∃ s o f, f.pending = [] ∧ P ⟨s, o, f, []⟩ ∧ run c m = (s.next f.key f.binding,
      ⟨(s.push (s.next f.key f.binding)).settle (s.next f.key f.binding), o.erase f.key⟩) := by
  -- a run has no structure of its own; what goes down is the bound on the steps to come
  induction hn : work c m using Nat.strongRecOn generalizing m with
  | _ n ih =>
    cases hs : step c m with
    | running m' =>
      have hm := step_eq_running_iff.1 hs
      rw [run_of_move hm]
      exact ih (work c m') (hn ▸ work_step hs) (hmove hm h) rfl
    | finished t r =>
      obtain ⟨s, o, f, hf, rfl⟩ := exists_of_step_eq_finished hs
      exact ⟨s, o, f, hf, h, run_of_last hf⟩

/-- The open keys are the keys of the frames, each of one frame. -/
structure Tracked (m : Machine) : Prop where
  tracks : Tracks m.opened m.keys
  nodup : m.keys.Nodup

theorem tracked_openKey (c : Catalog) (s : Store) {o : Std.TreeSet TypeKey} {k : TypeKey}
    {waiting : List Waiting} (ho : Tracks o (waiting.map (·.frame.key)))
    (hn : (waiting.map (·.frame.key)).Nodup) (hk : k ∉ o) :
    Tracked (openKey c s o k waiting) := by
  have hkey : (openKey c s o k waiting).keys = k :: waiting.map (·.frame.key) := by
    rw [openKey_eq]
    rfl
  constructor
  · rw [hkey]
    exact ho.insert k
  · rw [hkey]
    exact List.nodup_cons.2 ⟨fun hm => hk ((ho k).2 hm), hn⟩

theorem tracked_move {c : Catalog} {m m' : Machine} (h : Move c m m') (hm : Tracked m) :
    Tracked m' := by
  cases h with
  | resume s o f parent link waiting hf =>
    have hn := List.nodup_cons.1 hm.nodup
    exact ⟨hm.tracks.erase hn.1, hn.2⟩
  | cycle s o k d bound link links waiting ho => exact ⟨hm.tracks, hm.nodup⟩
  | reuse s o k d bound link links waiting t ho ht => exact ⟨hm.tracks, hm.nodup⟩
  | enter s o k d bound link links waiting ho hs =>
    exact tracked_openKey c s hm.tracks hm.nodup ho

end Machine

/-- A look-up leaves no key open. -/
theorem Resolver.opened_resolve (c : Catalog) (s : Store) (k : TypeKey) :
    (Resolver.resolve c ⟨s, ∅⟩ k).2.opened = ∅ := by
  cases hs : s.find? k with
  | some t => rw [Resolver.resolve_of_settled c hs]
  | none =>
    rw [Resolver.resolve_of_unsettled c hs]
    have hk : (Machine.openKey c s ∅ k []).Tracked :=
      Machine.tracked_openKey c s tracks_empty List.nodup_nil Std.TreeSet.not_mem_emptyc
    obtain ⟨s', o, f, _, hm, hrun⟩ := Machine.run_ends Machine.tracked_move hk
    rw [hrun]
    exact (hm.tracks.erase (List.nodup_cons.1 hm.nodup).1).eq_empty

theorem Resolver.resolve_eq (c : Catalog) (s : Store) (k : TypeKey) :
    Resolver.resolve c ⟨s, ∅⟩ k = ((s.resolve c k).1, ⟨(s.resolve c k).2, ∅⟩) := by
  have h := Resolver.opened_resolve c s k
  rw [Store.resolve]
  generalize Resolver.resolve c ⟨s, ∅⟩ k = p at h ⊢
  obtain ⟨t, s', o⟩ := p
  simp_all

end TypeCatalog
