import TypeCatalog.Budget
import TypeCatalog.Catalog
import TypeCatalog.Store

/-!
Resolution. A key is resolved by following its base links depth first. The types that wait for
their links stand on a stack of frames, so a chain of any length needs no deep recursion. A link
to a key whose frame is still open closes a cycle and is bound to a placeholder of its own; a link
to a settled key is bound to its type; any other link opens a frame.

The run ends without a bound on its length. A step uses up a link or a frame; only opening a frame
adds links, and it does so at most once for each visible key, since a key that was opened stays
open or settled.
-/

namespace TypeCatalog

/-- A type whose links are being followed. -/
structure Frame where
  key : TypeKey
  /-- Nothing declares a key without a definition. -/
  definition? : Option Definition
  /-- The types of the links followed so far. -/
  bound : Array TypeId
  pending : List BaseLink

/-- A frame that waits for the type of one of its links. -/
structure Waiting where
  frame : Frame
  link : BaseLink

structure Machine where
  store : Store
  /-- The keys that have a frame. -/
  opened : Std.TreeSet TypeKey
  current : Frame
  waiting : List Waiting

/-- What one look-up leaves to the next: the store, and the keys that still have a frame. -/
structure Resolver where
  store : Store
  opened : Std.TreeSet TypeKey := ∅

inductive Outcome where
  | running (m : Machine)
  | finished (t : ResolvedType) (r : Resolver)

namespace Frame

def bind (f : Frame) (t : ResolvedType) : Frame :=
  { f with bound := f.bound.push t.id }

/-- What the key of a frame is bound to once all its links are. -/
def binding (f : Frame) : Binding :=
  match f.definition? with
  | some d => .declared d f.bound.toList
  | none => .unknown .unresolved

def ofOutline? (k : TypeKey) : Option Outline → Frame
  | some o => ⟨k, some o.definition, #[], o.links⟩
  | none => ⟨k, none, #[], []⟩

end Frame

/-- Reports a link that names a type which nothing declares. -/
def Store.reportMissing (s : Store) (subject : TypeKey) (link : BaseLink) (t : ResolvedType) :
    Store :=
  if link.explicit && t.unknownReason? = some .unresolved then
    s.report ⟨link.file, subject, .unresolvedBase link.key⟩
  else s

namespace Machine

/-- Opens a frame for a key that is neither open nor settled. -/
def openKey (c : Catalog) (s : Store) (opened : Std.TreeSet TypeKey) (k : TypeKey)
    (waiting : List Waiting) : Machine :=
  let outline? := c.outline? k
  { store := s.miss.reportAll ((outline?.map Outline.reports).getD [])
    opened := opened.insert k
    current := .ofOutline? k outline?
    waiting := waiting }

/-- Binds a link that closes a cycle. -/
def breakCycle (s : Store) (opened : Std.TreeSet TypeKey) (f : Frame) (waiting : List Waiting)
    (link : BaseLink) : Machine :=
  let s := s.report ⟨link.file, f.key, .circularBase link.key⟩
  let t := s.next link.key (.unknown .cycle)
  ⟨s.push t, opened, f.bind t, waiting⟩

/-- Binds a link whose key is settled. -/
def reuse (s : Store) (opened : Std.TreeSet TypeKey) (f : Frame) (waiting : List Waiting)
    (link : BaseLink) (t : ResolvedType) : Machine :=
  ⟨s.hit.reportMissing f.key link t, opened, f.bind t, waiting⟩

/-- Settles the key of a frame that has no link left and goes back to the frame that waits. -/
def close (s : Store) (opened : Std.TreeSet TypeKey) (f : Frame) : List Waiting → Outcome
  | [] =>
    let t := s.next f.key f.binding
    .finished t ⟨(s.push t).settle t, opened.erase f.key⟩
  | ⟨parent, link⟩ :: waiting =>
    let t := s.next f.key f.binding
    .running ⟨((s.push t).settle t).reportMissing parent.key link t, opened.erase f.key,
      parent.bind t, waiting⟩

def step (c : Catalog) : Machine → Outcome
  | ⟨s, opened, ⟨key, definition?, bound, []⟩, waiting⟩ =>
    close s opened ⟨key, definition?, bound, []⟩ waiting
  | ⟨s, opened, ⟨key, definition?, bound, link :: pending⟩, waiting⟩ =>
    if opened.contains link.key then
      .running (breakCycle s opened ⟨key, definition?, bound, pending⟩ waiting link)
    else match s.find? link.key with
      | some t => .running (reuse s opened ⟨key, definition?, bound, pending⟩ waiting link t)
      | none =>
        .running (openKey c s opened link.key
          (⟨⟨key, definition?, bound, pending⟩, link⟩ :: waiting))

/-- A key that cannot be opened any more, because it is open or settled. -/
def isUsed (s : Store) (opened : Std.TreeSet TypeKey) (k : TypeKey) : Bool :=
  opened.contains k || (s.find? k).isSome

/-- The links that frames for the keys still to be opened can add, each counted twice. -/
def debt (c : Catalog) (used : TypeKey → Bool) : Nat :=
  budget (fun k => 2 * (c.links k).length) used c.visibleKeys

/-- The steps that the links of waiting frames take, and the closing of the frames above them. -/
def backlog : List Waiting → Nat
  | [] => 0
  | w :: waiting => 2 * w.frame.pending.length + 1 + backlog waiting

/-- A bound on the number of steps to come. -/
def work (c : Catalog) (m : Machine) : Nat :=
  debt c (isUsed m.store m.opened) + 2 * m.current.pending.length + backlog m.waiting

theorem debt_le (c : Catalog) {used used' : TypeKey → Bool}
    (h : ∀ k, used k = true → used' k = true) : debt c used' ≤ debt c used :=
  budget_le _ h _

/-- Opening a frame pays for the links it adds. -/
theorem debt_add_le (c : Catalog) {used used' : TypeKey → Bool}
    (h : ∀ k, used k = true → used' k = true) {k : TypeKey} (hk : used k = false)
    (hk' : used' k = true) : debt c used' + 2 * (c.links k).length ≤ debt c used := by
  by_cases hv : k ∈ c.visibleKeys
  · exact budget_add_le (fun k => 2 * (c.links k).length) h hk hk' hv
  · have : c.links k = [] := by
      simp [Catalog.links, (c.outline?_eq_none_iff k).2 hv]
    simpa [this] using debt_le c h

/-- Whether a key is used hangs on the table of settled keys only. -/
theorem isUsed_congr {s s' : Store} (h : s'.find? = s.find?) (opened : Std.TreeSet TypeKey) :
    isUsed s' opened = isUsed s opened := by
  funext k
  rw [isUsed, isUsed, h]

@[simp] theorem find?_reportMissing (s : Store) (subject : TypeKey) (link : BaseLink)
    (t : ResolvedType) : (s.reportMissing subject link t).find? = s.find? := by
  unfold Store.reportMissing
  split <;> rfl

@[simp] theorem arena_reportMissing (s : Store) (subject : TypeKey) (link : BaseLink)
    (t : ResolvedType) : (s.reportMissing subject link t).arena = s.arena := by
  unfold Store.reportMissing
  split <;> rfl

/-- A frame begins with all links of its key before it, and with the reports on its declarations. -/
theorem openKey_eq (c : Catalog) (s : Store) (opened : Std.TreeSet TypeKey) (k : TypeKey)
    (waiting : List Waiting) :
    openKey c s opened k waiting = ⟨s.miss.reportAll (c.reports k), opened.insert k,
      ⟨k, (c.outline? k).map Outline.definition, #[], c.links k⟩, waiting⟩ := by
  unfold openKey Catalog.links Catalog.reports
  cases c.outline? k <;> rfl

theorem isUsed_openKey {s : Store} {opened : Std.TreeSet TypeKey} {k j : TypeKey} (c : Catalog)
    (waiting : List Waiting) (h : isUsed s opened j = true) :
    isUsed (openKey c s opened k waiting).store (openKey c s opened k waiting).opened j = true := by
  simp only [isUsed, Bool.or_eq_true] at h
  simp only [isUsed, openKey, Store.find?_reportAll, Store.find?_miss, Std.TreeSet.contains_insert,
    Bool.or_eq_true]
  exact h.imp .inr id

theorem isUsed_close {s : Store} {opened : Std.TreeSet TypeKey} {k j : TypeKey} (t : ResolvedType)
    (ht : t.key = k) (h : isUsed s opened j = true) :
    isUsed ((s.push t).settle t) (opened.erase k) j = true := by
  simp only [isUsed, Bool.or_eq_true] at h
  simp only [isUsed, Store.find?_settle, Store.find?_push, Std.TreeSet.contains_erase,
    Bool.or_eq_true]
  by_cases hk : k = j
  · simp [ht, hk]
  · have hc : compare k j ≠ .eq := fun hc => hk (Std.LawfulEqOrd.eq_of_compare hc)
    simpa [ht, hk, hc] using h

theorem work_close {c : Catalog} {s : Store} {opened : Std.TreeSet TypeKey} {f : Frame}
    {waiting : List Waiting} {m : Machine} (h : close s opened f waiting = .running m) :
    work c m < work c ⟨s, opened, f, waiting⟩ := by
  cases waiting with
  | nil => simp [close] at h
  | cons w waiting =>
    simp only [close, Outcome.running.injEq] at h
    subst h
    have hd : debt c (isUsed ((s.push (s.next f.key f.binding)).settle (s.next f.key f.binding))
        (opened.erase f.key)) ≤ debt c (isUsed s opened) :=
      debt_le c fun _ => isUsed_close _ rfl
    simp only [work, Frame.bind, isUsed_congr (find?_reportMissing _ _ _ _), backlog] at hd ⊢
    omega

theorem work_breakCycle (c : Catalog) (s : Store) (opened : Std.TreeSet TypeKey) (f : Frame)
    (waiting : List Waiting) (link : BaseLink) :
    work c (breakCycle s opened f waiting link) = work c ⟨s, opened, f, waiting⟩ := rfl

theorem work_reuse (c : Catalog) (s : Store) (opened : Std.TreeSet TypeKey) (f : Frame)
    (waiting : List Waiting) (link : BaseLink) (t : ResolvedType) :
    work c (reuse s opened f waiting link t) = work c ⟨s, opened, f, waiting⟩ := by
  simp only [work, reuse, Frame.bind, isUsed_congr (find?_reportMissing _ _ _ _)]
  rfl

theorem work_openKey (c : Catalog) {s : Store} {opened : Std.TreeSet TypeKey} (f : Frame)
    (waiting : List Waiting) {link : BaseLink} (h : isUsed s opened link.key = false) :
    work c (openKey c s opened link.key (⟨f, link⟩ :: waiting)) ≤
      work c ⟨s, opened, f, waiting⟩ + 1 := by
  have hd : debt c (isUsed (openKey c s opened link.key (⟨f, link⟩ :: waiting)).store
      (openKey c s opened link.key (⟨f, link⟩ :: waiting)).opened) +
        2 * (c.links link.key).length ≤ debt c (isUsed s opened) :=
    debt_add_le c (fun _ => isUsed_openKey c _) h (by simp [isUsed, openKey])
  simp only [work, openKey_eq, backlog] at hd ⊢
  omega

theorem work_step {c : Catalog} {m m' : Machine} (h : step c m = .running m') :
    work c m' < work c m := by
  obtain ⟨s, opened, ⟨key, definition?, bound, pending⟩, waiting⟩ := m
  cases pending with
  | nil => exact work_close h
  | cons link pending =>
    have hp : ∀ f : Frame, f = ⟨key, definition?, bound, pending⟩ →
        work c ⟨s, opened, f, waiting⟩ + 1 <
          work c ⟨s, opened, ⟨key, definition?, bound, link :: pending⟩, waiting⟩ := by
      rintro f rfl
      simp only [work, List.length_cons]
      omega
    have hp := hp _ rfl
    simp only [step] at h
    split at h
    · cases h
      rw [work_breakCycle]
      omega
    · rename_i hopen
      split at h
      · cases h
        rw [work_reuse]
        omega
      · rename_i hfind
        cases h
        have hu : isUsed s opened link.key = false := by simp [isUsed, hopen, hfind]
        have := work_openKey c ⟨key, definition?, bound, pending⟩ waiting hu
        omega

/-- Runs until the first frame is closed. -/
def run (c : Catalog) (m : Machine) : ResolvedType × Resolver :=
  match _h : step c m with
  | .running m' => run c m'
  | .finished t r => (t, r)
termination_by work c m
decreasing_by exact work_step ‹_›

theorem run_of_running {c : Catalog} {m m' : Machine} (h : step c m = .running m') :
    run c m = run c m' := by
  rw [run]
  split <;> simp_all

theorem run_of_finished {c : Catalog} {m : Machine} {t : ResolvedType} {r : Resolver}
    (h : step c m = .finished t r) : run c m = (t, r) := by
  rw [run]
  split <;> simp_all

end Machine

/-- Looks up one key; a resolver looks up any number of keys in turn. -/
def Resolver.resolve (c : Catalog) (r : Resolver) (k : TypeKey) : ResolvedType × Resolver :=
  match r.store.find? k with
  | some t => (t, { r with store := r.store.hit })
  | none => Machine.run c (Machine.openKey c r.store r.opened k [])

/-- The type of a key, and the store after the look-up. -/
def Store.resolve (c : Catalog) (s : Store) (k : TypeKey) : ResolvedType × Store :=
  let (t, r) := Resolver.resolve c ⟨s, ∅⟩ k
  (t, r.store)

theorem Resolver.resolve_of_settled (c : Catalog) {r : Resolver} {k : TypeKey} {t : ResolvedType}
    (h : r.store.find? k = some t) : r.resolve c k = (t, { r with store := r.store.hit }) := by
  simp [Resolver.resolve, h]

theorem Resolver.resolve_of_unsettled (c : Catalog) {r : Resolver} {k : TypeKey}
    (h : r.store.find? k = none) :
    r.resolve c k = Machine.run c (Machine.openKey c r.store r.opened k []) := by
  simp [Resolver.resolve, h]

theorem Store.resolve_of_settled (c : Catalog) {s : Store} {k : TypeKey} {t : ResolvedType}
    (h : s.find? k = some t) : s.resolve c k = (t, s.hit) := by
  simp [Store.resolve, Resolver.resolve, h]

end TypeCatalog
