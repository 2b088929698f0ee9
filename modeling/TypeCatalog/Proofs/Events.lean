import Mathlib.Data.List.Induction
import Mathlib.Data.List.Nodup
import Mathlib.Data.Nat.Find
import TypeCatalog.Snapshot

/-!
# Rosters told by their events

An update of a snapshot is a number of events of its rosters: values are put in, and identities are
taken out. Which identities are present, what stands under them and in which order is told by the
moments of these events alone, without any roster: an identity is present if its last insertion is
later than its last removal, and those present stand in the order in which they last came in.
-/

namespace TypeCatalog

section Moments

variable {ε : Type}

/-- The last moment at which the events so far have a property. Moments are counted from one, and
zero stands for never. -/
def lastMoment (P : List ε → Prop) [DecidablePred P] (events : List ε) : Nat :=
  Nat.findGreatest (fun n => P (events.take n)) events.length

variable {P : List ε → Prop} [DecidablePred P] {events : List ε}

theorem lastMoment_le : lastMoment P events ≤ events.length :=
  Nat.findGreatest_le _

theorem lastMoment_concat (e : ε) : lastMoment P (events ++ [e]) =
    if P (events ++ [e]) then events.length + 1 else lastMoment P events := by
  have hbefore : ∀ n ≤ events.length,
      Nat.findGreatest (fun m => P ((events ++ [e]).take m)) n =
        Nat.findGreatest (fun m => P (events.take m)) n := by
    intro n hn
    induction n with
    | zero => rfl
    | succ n ih =>
      rw [Nat.findGreatest_succ, Nat.findGreatest_succ, ih (by omega),
        List.take_append_of_le_length hn]
  rw [lastMoment, List.length_append, List.length_singleton, Nat.findGreatest_succ,
    hbefore _ le_rfl, List.take_of_length_le (by simp)]
  rfl

end Moments

namespace Roster

inductive Event (α ι : Type) where
  | insert (a : α)
  | erase (i : ι)
  deriving DecidableEq, Repr

variable {α ι : Type} [Identified α ι] [DecidableEq ι]

namespace Event

def inserts (i : ι) : Event α ι → Bool
  | .insert a => identity a = i
  | .erase _ => false

def erases (i : ι) : Event α ι → Bool
  | .insert _ => false
  | .erase j => j = i

def value? : Event α ι → Option α
  | .insert a => some a
  | .erase _ => none

def apply (r : Roster α) : Event α ι → Roster α
  | .insert a => r.insert a
  | .erase i => r.erase i

end Event

def lastInsertion (i : ι) (events : List (Event α ι)) : Nat :=
  lastMoment (fun before => before.getLast?.any (Event.inserts i)) events

def lastRemoval (i : ι) (events : List (Event α ι)) : Nat :=
  lastMoment (fun before => before.getLast?.any (Event.erases i)) events

/-- An identity is present if its last insertion is later than its last removal. -/
def Present (i : ι) (events : List (Event α ι)) : Prop :=
  lastRemoval i events < lastInsertion i events

instance (i : ι) : DecidablePred (Present (α := α) i) :=
  fun _ => inferInstanceAs (Decidable (_ < _))

/-- The moment at which an identity last went from absent to present. -/
def lastEntry (i : ι) (events : List (Event α ι)) : Nat :=
  lastMoment (fun before => ¬ Present i before.dropLast ∧ Present i before) events

/-- The value that was last put in under an identity. -/
def lastInserted? (i : ι) (events : List (Event α ι)) : Option α :=
  (events.filterMap Event.value?).reverse.find? (identity · = i)

/-- What a roster holds, and in which order, is told by the moments of its events. -/
structure Follows (r : Roster α) (events : List (Event α ι)) : Prop where
  distinct : r.identities.Nodup
  /-- A value stands under its own identity, and nothing else does. -/
  find?_eq_some_iff : ∀ i a, r.find? i = some a ↔ a ∈ r.toList ∧ identity a = i
  mem_iff : ∀ i, i ∈ r.identities ↔ Present i events
  find?_eq : ∀ i ∈ r.identities, r.find? i = lastInserted? i events
  ordered : r.identities.Pairwise fun i j => lastEntry i events < lastEntry j events

section Concat

variable {events : List (Event α ι)} {i : ι}

theorem lastInsertion_concat (e : Event α ι) : lastInsertion i (events ++ [e]) =
    if e.inserts i then events.length + 1 else lastInsertion i events := by
  simp [lastInsertion, lastMoment_concat]

omit [Identified α ι] in
theorem lastRemoval_concat (e : Event α ι) : lastRemoval i (events ++ [e]) =
    if e.erases i then events.length + 1 else lastRemoval i events := by
  simp [lastRemoval, lastMoment_concat]

theorem present_concat_insert (a : α) :
    Present i (events ++ [.insert a]) ↔ identity a = i ∨ Present i events := by
  have hremoval : lastRemoval i events ≤ events.length := lastMoment_le
  rw [Present, lastInsertion_concat, lastRemoval_concat, Present]
  by_cases h : identity a = i
  · simp [Event.inserts, Event.erases, h]
    omega
  · simp [Event.inserts, Event.erases, h]

theorem present_concat_erase (j : ι) :
    Present i (events ++ [.erase j]) ↔ j ≠ i ∧ Present i events := by
  have hinsertion : lastInsertion i events ≤ events.length := lastMoment_le
  rw [Present, lastInsertion_concat, lastRemoval_concat, Present]
  by_cases h : j = i
  · simp [Event.inserts, Event.erases, h]
    omega
  · simp [Event.inserts, Event.erases, h]

/-- An identity that comes in does so at the newest moment; for others nothing changes. -/
theorem lastEntry_concat (e : Event α ι) : lastEntry i (events ++ [e]) =
    if ¬ Present i events ∧ Present i (events ++ [e]) then events.length + 1
    else lastEntry i events := by
  rw [lastEntry, lastMoment_concat, List.dropLast_concat]
  rfl

theorem lastInserted?_concat_insert (a : α) : lastInserted? i (events ++ [.insert a]) =
    if identity a = i then some a else lastInserted? i events := by
  by_cases h : identity a = i <;> simp [lastInserted?, Event.value?, h]

theorem lastInserted?_concat_erase (j : ι) :
    lastInserted? i (events ++ [.erase j]) = lastInserted? i events := by
  simp [lastInserted?, Event.value?, List.filterMap_cons]

end Concat

theorem find?_eq_some_iff {r : Roster α} {i : ι} {a : α} :
    r.find? i = some a ↔ a ∈ r.toList ∧ identity a = i := by
  constructor
  · intro h
    exact ⟨List.mem_of_find?_eq_some h, by simpa using List.find?_some h⟩
  · rintro ⟨hmem, rfl⟩
    have hsome : (r.find? (identity a)).isSome := List.find?_isSome.2 ⟨a, hmem, by simp⟩
    obtain ⟨b, hb⟩ := Option.isSome_iff_exists.1 hsome
    have hid : identity b = identity a := by simpa using List.find?_some hb
    rw [hb, List.inj_on_of_nodup_map r.distinct (List.mem_of_find?_eq_some hb) hmem hid]

namespace Follows

variable {r : Roster α} {events : List (Event α ι)}

theorem empty : Follows (∅ : Roster α) [] where
  distinct := List.nodup_nil
  find?_eq_some_iff _ _ := Roster.find?_eq_some_iff
  mem_iff i := by simp [identities, Present, lastInsertion, lastRemoval, lastMoment]
  find?_eq i hi := by simp [identities] at hi
  ordered := .nil

/-- A value of a known identity takes the place of the old one; any other comes in last. -/
theorem insert (h : r.Follows events) (a : α) : (r.insert a).Follows (events ++ [.insert a]) where
  distinct := (r.insert a).distinct
  find?_eq_some_iff _ _ := Roster.find?_eq_some_iff
  mem_iff i := by
    rw [present_concat_insert, ← h.mem_iff, identities_insert]
    split
    · rename_i ha
      constructor
      · exact .inr
      · rintro (rfl | hi)
        · exact ha
        · exact hi
    · rw [List.mem_append, List.mem_singleton, or_comm, eq_comm]
  find?_eq i hi := by
    rw [find?_insert, lastInserted?_concat_insert]
    split
    · rfl
    · rename_i hne
      refine h.find?_eq i ?_
      rw [identities_insert] at hi
      split at hi
      · exact hi
      · exact (List.mem_append.1 hi).resolve_right fun hlast =>
          hne (List.mem_singleton.1 hlast).symm
  ordered := by
    have hold : ∀ i ∈ r.identities,
        lastEntry i (events ++ [.insert a]) = lastEntry i events := fun i hi => by
      rw [lastEntry_concat, if_neg fun hnew => hnew.1 ((h.mem_iff i).1 hi)]
    have hrest : r.identities.Pairwise fun i j =>
        lastEntry i (events ++ [.insert a]) < lastEntry j (events ++ [.insert a]) :=
      h.ordered.imp_of_mem fun hi hj hlt => by rwa [hold _ hi, hold _ hj]
    rw [identities_insert]
    split
    · exact hrest
    · rename_i ha
      have hnew : lastEntry (identity a) (events ++ [.insert a]) = events.length + 1 := by
        have hpresent : Present (identity a) (events ++ [.insert a]) :=
          (present_concat_insert a).2 (.inl rfl)
        rw [lastEntry_concat, if_pos ⟨mt (h.mem_iff _).2 ha, hpresent⟩]
      refine List.pairwise_append.2 ⟨hrest, List.pairwise_singleton _ _, fun i hi j hj => ?_⟩
      rw [List.mem_singleton.1 hj, hnew, hold i hi]
      exact Nat.lt_succ_of_le lastMoment_le

/-- The others keep their places. -/
theorem erase (h : r.Follows events) (i : ι) : (r.erase i).Follows (events ++ [.erase i]) where
  distinct := (r.erase i).distinct
  find?_eq_some_iff _ _ := Roster.find?_eq_some_iff
  mem_iff j := by
    rw [present_concat_erase, ← h.mem_iff, identities_erase, List.mem_filter, decide_eq_true_eq,
      and_comm, ne_comm]
  find?_eq j hj := by
    rw [identities_erase, List.mem_filter] at hj
    have hne : i ≠ j := fun he => by simp [he] at hj
    rw [find?_erase, if_neg hne, lastInserted?_concat_erase, h.find?_eq j hj.1]
  ordered := by
    rw [identities_erase]
    refine (h.ordered.sublist List.filter_sublist).imp fun {j k} hlt => ?_
    have hold : ∀ j, lastEntry j (events ++ [.erase i]) = lastEntry j events := fun j => by
      rw [lastEntry_concat, if_neg fun hnew => hnew.1 ((present_concat_erase i).1 hnew.2).2]
    rwa [hold, hold]

end Follows

/-- Every roster that comes about by events follows them. -/
theorem follows_foldl (events : List (Event α ι)) :
    (events.foldl Event.apply ∅).Follows events := by
  induction events using List.reverseRecOn with
  | nil => exact .empty
  | append_singleton events e ih =>
    rw [List.foldl_concat]
    cases e with
    | insert a => exact ih.insert a
    | erase i => exact ih.erase i

theorem foldl_apply_insert (r : Roster α) (as : List α) :
    (as.map .insert).foldl Event.apply r = r.insertAll as :=
  List.foldl_map

theorem foldl_apply_erase (r : Roster α) (is : List ι) :
    (is.map .erase).foldl Event.apply r = r.eraseAll is :=
  List.foldl_map

end Roster

namespace Update

open Roster (Event)

/-- What an update does to the files. A file under a new identity first takes out the old one. -/
def fileEvents : Update → List (Event SourceFile String)
  | .addFile file => [.insert file]
  | .addFiles files => files.map .insert
  | .removeFile file => [.erase file]
  | .changeFile old new =>
    (old.filter (some · ≠ new.map identity)).toList.map .erase ++ new.toList.map .insert
  | _ => []

def referenceEvents : Update → List (Event Assembly AssemblyName)
  | .addReferences assemblies => assemblies.map .insert
  | .removeReferences names => names.map .erase
  | _ => []

end Update

namespace Project

/-- The parts of a project that an update can be about. -/
inductive Component where
  | files | references | assemblyName | path | options
  deriving DecidableEq, Repr

/-- Two projects are equal in all but one component. -/
structure SameBut (x : Component) (p p' : Project) : Prop where
  files : x ≠ .files → p'.files = p.files
  references : x ≠ .references → p'.references = p.references
  assemblyName : x ≠ .assemblyName → p'.assemblyName = p.assemblyName
  path : x ≠ .path → p'.path = p.path
  options : x ≠ .options → p'.options = p.options

end Project

def Update.component : Update → Project.Component
  | .addFile _ | .addFiles _ | .removeFile _ | .changeFile _ _ => .files
  | .addReferences _ | .removeReferences _ => .references
  | .setAssemblyName _ => .assemblyName
  | .setPath _ => .path
  | .setOptions _ => .options

namespace Project

open Roster (Event)

theorem files_edit (p : Project) (u : Update) :
    (p.edit u).files = u.fileEvents.foldl Event.apply p.files := by
  cases u with
  | addFiles files => exact (Roster.foldl_apply_insert p.files files).symm
  | changeFile old new =>
    cases old with
    | none => cases new <;> rfl
    | some old =>
      cases new with
      | none => rfl
      | some new =>
        by_cases h : old = identity new <;>
          simp [edit, Roster.change, Update.fileEvents, Event.apply, Option.filter, h]
  | _ => rfl

theorem references_edit (p : Project) (u : Update) :
    (p.edit u).references = u.referenceEvents.foldl Event.apply p.references := by
  cases u with
  | addReferences assemblies => exact (Roster.foldl_apply_insert p.references assemblies).symm
  | removeReferences names => exact (Roster.foldl_apply_erase p.references names).symm
  | _ => rfl

theorem sameBut_edit (p : Project) (u : Update) : p.SameBut u.component (p.edit u) := by
  cases u <;> constructor <;> simp [edit, Update.component]

end Project

/-- A part of a project that each update changes event by event is changed so by all of them. -/
theorem Snapshot.get_updateAll {β ε : Type} {get : Project → β} {events : Update → List ε}
    {apply : β → ε → β} (hedit : ∀ p u, get (p.edit u) = (events u).foldl apply (get p))
    (s : Snapshot) (us : List Update) :
    get (s.updateAll us).project = (us.flatMap events).foldl apply (get s.project) := by
  induction us generalizing s with
  | nil => rfl
  | cons u us ih =>
    rw [updateAll_cons, ih, project_update, hedit, List.flatMap_cons, List.foldl_append]

/-- After any updates of the initial snapshot, its files and its references are told by what the
updates put in and took out, and its number is that of the updates. A further update changes nothing
but the component that it is about. -/
theorem snapshot_follows_updates (us : List Update) :
    let s := Snapshot.initial.updateAll us
    s.project.files.Follows (us.flatMap Update.fileEvents) ∧
    s.project.references.Follows (us.flatMap Update.referenceEvents) ∧
    s.version = us.length ∧
    ∀ u, s.project.SameBut u.component (s.update u).project := by
  intro s
  refine ⟨?_, ?_, ?_, fun u => s.project.sameBut_edit u⟩
  · have hfiles := Snapshot.get_updateAll Project.files_edit .initial us
    exact hfiles ▸ Roster.follows_foldl _
  · have hreferences := Snapshot.get_updateAll Project.references_edit .initial us
    exact hreferences ▸ Roster.follows_foldl _
  · have hversion := Snapshot.version_updateAll .initial us
    rwa [show Snapshot.initial.version = 0 from rfl, Nat.zero_add] at hversion

/-- A file that is replaced keeps its place; one that is taken out and put in again goes to the
end. -/
example :
    let file (identity : String) : SourceFile := ⟨identity, []⟩
    let both := Snapshot.initial.updateAll [.addFiles [file "a.cs", file "b.cs"]]
    (both.update (.changeFile (some "a.cs") (file "a.cs"))).project.files.identities =
      ["a.cs", "b.cs"] ∧
    (both.updateAll [.removeFile "a.cs", .addFile (file "a.cs")]).project.files.identities =
      ["b.cs", "a.cs"] := by
  decide

end TypeCatalog
