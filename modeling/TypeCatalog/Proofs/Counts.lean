import TypeCatalog.Proofs.Cycles
import TypeCatalog.Proofs.Laziness
import TypeCatalog.Proofs.Permanence

/-!
# Balanced counts

A look-up of a key that is not settled is a miss, and in the end it settles that key. A link that
closes a cycle is not looked up: it gets a placeholder and a report. So what a store has counted
follows from what it holds. In the middle of a look-up two things are still owed: each open frame is
a miss without a settled key, and the links that a frame has used up belong to no type yet.
-/

namespace TypeCatalog

namespace Store

/-- How many types stand in for a base type that would close a cycle. -/
def placeholders (s : Store) : Nat :=
  s.arena.toList.countP (·.origin = .unknown .cycle)

/-- How many base links all types have together. -/
def links (s : Store) : Nat :=
  (s.arena.toList.flatMap ResolvedType.bases).length

def cycleReports (s : Store) : Nat :=
  s.reports.toList.countP (·.diagnostic.code = some "W0102")

/-- The counts of a store with so many open frames, where so many keys were asked for by queries or
by the links that open frames have used up. -/
structure Balanced (opened asked : Nat) (s : Store) : Prop where
  misses : s.count.misses = s.settled.size + opened
  size : s.arena.size = s.settled.size + s.placeholders
  reported : s.cycleReports = s.placeholders
  lookups : s.count.hits + s.count.misses + s.placeholders = asked + s.links

theorem placeholders_push (s : Store) (t : ResolvedType) : (s.push t).placeholders =
    s.placeholders + if t.origin = .unknown .cycle then 1 else 0 := by
  simp [placeholders, List.countP_append, List.countP_singleton]

theorem links_push (s : Store) (t : ResolvedType) :
    (s.push t).links = s.links + t.bases.length := by
  simp [links]

theorem cycleReports_report (s : Store) (r : Report) : (s.report r).cycleReports =
    s.cycleReports + if r.diagnostic.code = some "W0102" then 1 else 0 := by
  simp [cycleReports, List.countP_append, List.countP_singleton]

theorem size_settled_settle {s : Store} {t : ResolvedType} (h : s.find? t.key = none) :
    (s.settle t).settled.size = s.settled.size + 1 := by
  have hnew : t.key ∉ s.settled := by
    rw [Std.TreeMap.mem_iff_isSome_getElem?]
    simpa [find?] using h
  simp [settle, Std.TreeMap.size_insert, hnew]

namespace Balanced

variable {s : Store} {opened asked : Nat}

theorem empty : ({} : Store).Balanced 0 0 where
  misses := rfl
  size := rfl
  reported := rfl
  lookups := rfl

theorem hit (h : s.Balanced opened asked) : s.hit.Balanced opened (asked + 1) where
  misses := h.misses
  size := h.size
  reported := h.reported
  lookups := by
    have hl := h.lookups
    change s.count.hits + 1 + s.count.misses + s.placeholders = asked + 1 + s.links
    omega

theorem miss (h : s.Balanced opened asked) : s.miss.Balanced (opened + 1) (asked + 1) where
  misses := congrArg (· + 1) h.misses
  size := h.size
  reported := h.reported
  lookups := by
    have hl := h.lookups
    change s.count.hits + (s.count.misses + 1) + s.placeholders = asked + 1 + s.links
    omega

theorem report (h : s.Balanced opened asked) {r : Report}
    (hr : r.diagnostic.code ≠ some "W0102") : (s.report r).Balanced opened asked where
  misses := h.misses
  size := h.size
  reported := by
    rw [cycleReports_report, if_neg hr]
    exact h.reported
  lookups := h.lookups

theorem reportAll (h : s.Balanced opened asked) {rs : List Report}
    (hr : ∀ r ∈ rs, r.diagnostic.code ≠ some "W0102") :
    (s.reportAll rs).Balanced opened asked := by
  induction rs generalizing s with
  | nil => exact h
  | cons r rs ih =>
    exact ih (h.report (hr r List.mem_cons_self)) fun r' hr' => hr r' (List.mem_cons_of_mem _ hr')

theorem reportMissing (h : s.Balanced opened asked) (subject : TypeKey) (link : BaseLink)
    (t : ResolvedType) : (s.reportMissing subject link t).Balanced opened asked := by
  unfold Store.reportMissing
  split
  · exact h.report (by simp [Report.diagnostic, Diagnostic.unresolvedBase])
  · exact h

/-- A link that closes a cycle is reported and gets a placeholder. -/
theorem breakCycle (h : s.Balanced opened asked) (file : Option String) (subject base : TypeKey) :
    ((s.report ⟨file, subject, .circularBase base⟩).push
      (s.next base (.unknown .cycle))).Balanced opened (asked + 1) := by
  have horigin : (s.next base (.unknown .cycle)).origin = .unknown .cycle := rfl
  have hbases : (s.next base (.unknown .cycle)).bases = [] := rfl
  have hcode : (Report.diagnostic ⟨file, subject, .circularBase base⟩).code = some "W0102" := rfl
  constructor
  case misses => exact h.misses
  case size =>
    have hsize := h.size
    rw [placeholders_push, if_pos horigin, arena_push, Array.size_push]
    exact congrArg (· + 1) hsize
  case reported =>
    rw [placeholders_push, if_pos horigin]
    exact (cycleReports_report s _).trans (by rw [if_pos hcode, h.reported]; rfl)
  case lookups =>
    have hl := h.lookups
    rw [placeholders_push, if_pos horigin, links_push, hbases]
    change s.count.hits + s.count.misses + (s.placeholders + 1) = asked + 1 + (s.links + 0)
    omega

/-- The type of a frame that is closed takes over the links of the frame. -/
theorem settle {t : ResolvedType} (h : s.Balanced (opened + 1) (asked + t.bases.length))
    (hnew : s.find? t.key = none) (ht : t.origin ≠ .unknown .cycle) :
    ((s.push t).settle t).Balanced opened asked := by
  have hsettled := size_settled_settle (s := s.push t) hnew
  have hplaceholders : ((s.push t).settle t).placeholders = s.placeholders := by
    have hpush := placeholders_push s t
    rwa [if_neg ht] at hpush
  have hlinks : ((s.push t).settle t).links = s.links + t.bases.length := links_push s t
  have hsize : ((s.push t).settle t).arena.size = s.arena.size + 1 := Array.size_push t
  have hold : (s.push t).settled = s.settled := rfl
  have hcount : ((s.push t).settle t).count = s.count := rfl
  obtain ⟨hm, hs, hr, hl⟩ := h
  constructor
  case misses =>
    rw [hcount, hsettled, hold]
    omega
  case size =>
    rw [hsize, hsettled, hplaceholders, hold]
    omega
  case reported =>
    rw [hplaceholders]
    exact hr
  case lookups =>
    rw [hcount, hplaceholders, hlinks]
    omega

end Balanced
end Store

namespace Machine

variable {c : Catalog} {asked : Nat}

/-- How many links the frames that wait have used up: those they have bound, and the one that each
waits for. -/
def usedUp : List Waiting → Nat
  | [] => 0
  | w :: waiting => w.frame.bound.size + 1 + usedUp waiting

/-- The counts in the middle of a look-up, after so many keys were asked for by queries. -/
def Balanced (asked : Nat) (m : Machine) : Prop :=
  m.store.Balanced (m.waiting.length + 1) (asked + (m.current.bound.size + usedUp m.waiting))

/-- A frame that is opened has used up no link yet. -/
theorem balanced_openKey {s : Store} {o : Std.TreeSet TypeKey} {k : TypeKey}
    {waiting : List Waiting} {due : Nat} (h : s.Balanced waiting.length due)
    (hdue : asked + usedUp waiting = due + 1) : (openKey c s o k waiting).Balanced asked := by
  have hquiet : ∀ r ∈ c.reports k, r.diagnostic.code ≠ some "W0102" := by
    intro r hr hcode
    obtain ⟨base, hbase⟩ := r.exists_circularBase hcode
    exact (Catalog.subject_of_mem_reports hr).2 base hbase
  have hopened := h.miss.reportAll hquiet
  rw [openKey_eq, Balanced, Array.size_empty, Nat.zero_add, hdue]
  exact hopened

/-- The type of a frame without links left has one base for each link that the frame has bound. -/
theorem balanced_close {s : Store} {f : Frame} {opened due : Nat} (hfit : Fits c s f [])
    (hnew : s.find? f.key = none) (h : s.Balanced (opened + 1) (due + f.bound.size)) :
    ((s.push (s.next f.key f.binding)).settle (s.next f.key f.binding)).Balanced opened due := by
  have hbases : (s.next f.key f.binding).bases = f.bound.toList := by
    rw [hfit.binding_eq]
    exact Store.bases_binding hfit.bound_all _
  have horigin : (s.next f.key f.binding).origin ≠ .unknown .cycle := by
    rw [ne_eq, ResolvedType.origin_eq_cycle_iff, Store.binding_next, hfit.binding_eq]
    exact Store.binding_ne_cycle c f.key _
  refine Store.Balanced.settle ?_ hnew horigin
  rwa [hbases, Array.length_toList]

/-- The current frame binds one more link. -/
theorem balanced_bind {s : Store} {o : Std.TreeSet TypeKey} {f : Frame} {waiting : List Waiting}
    {due : Nat} (t : ResolvedType) (h : s.Balanced (waiting.length + 1) due)
    (hdue : due = asked + (f.bound.size + usedUp waiting) + 1) :
    Balanced asked ⟨s, o, f.bind t, waiting⟩ := by
  have hused : due = asked + ((f.bind t).bound.size + usedUp waiting) := by
    rw [hdue, Frame.bind, Array.size_push]
    omega
  rw [hused] at h
  exact h

theorem balanced_move {m m' : Machine} (h : Move c m m') (hs : m.Sound c)
    (hm : m.Balanced asked) : m'.Balanced asked := by
  have hnew := hs.unsettled _ List.mem_cons_self
  cases h with
  | resume s o f parent link waiting hf =>
    have hfit : Fits c s f [] := hf ▸ hs.current
    have hdue : asked + (f.bound.size + usedUp (⟨parent, link⟩ :: waiting)) =
        asked + (parent.bound.size + usedUp waiting) + 1 + f.bound.size := by
      change asked + (f.bound.size + (parent.bound.size + 1 + usedUp waiting)) = _
      omega
    rw [Balanced, hdue] at hm
    exact balanced_bind _ ((balanced_close hfit hnew hm).reportMissing parent.key link _) rfl
  | cycle s o k d bound link links waiting ho =>
    exact balanced_bind _ (Store.Balanced.breakCycle hm link.file k link.key) rfl
  | reuse s o k d bound link links waiting t ho ht =>
    exact balanced_bind _ ((Store.Balanced.hit hm).reportMissing k link t) rfl
  | enter s o k d bound link links waiting ho hnone =>
    refine balanced_openKey hm ?_
    change asked + (bound.size + 1 + usedUp waiting) = asked + (bound.size + usedUp waiting) + 1
    omega

end Machine

namespace Store.Balanced

variable {c : Catalog} {s : Store} {asked : Nat}

theorem resolve (h : s.Balanced 0 asked) (hc : s.Consistent c ∅) (k : TypeKey) :
    (s.resolve c k).2.Balanced 0 (asked + 1) := by
  cases hs : s.find? k with
  | some t =>
    rw [resolve_of_settled c hs]
    exact h.hit
  | none =>
    have hfirst : (Machine.openKey c s ∅ k []).Balanced (asked + 1) :=
      Machine.balanced_openKey h rfl
    obtain ⟨s', o, f, hf, hm, hlast, -, hres⟩ :=
      exists_last_frame (P := Machine.Balanced (asked + 1)) Machine.balanced_move hc hs hfirst
    rw [hres]
    exact Machine.balanced_close (hf ▸ hm.sound.current)
      (hm.sound.unsettled _ List.mem_cons_self) hlast

theorem resolveAll (h : s.Balanced 0 asked) (hc : s.Consistent c ∅) (ks : List TypeKey) :
    (s.resolveAll c ks).2.Balanced 0 (asked + ks.length) := by
  induction ks generalizing s asked with
  | nil => exact h
  | cons k ks ih =>
    rw [resolveAll_cons, List.length_cons, Nat.add_comm ks.length, ← Nat.add_assoc]
    exact ih (h.resolve hc k) (hc.resolve k).consistent

end Store.Balanced

/-- The queries that look at what is there and look up no key. -/
def Query.readsOnly : Query → Bool
  | .resolve _ | .memberType _ | .allTypes | .checkAll => false
  | .get _ | .directBases _ | .closure _ | .derives _ _ | .diagnostics | .counts => true

namespace Compilation

theorem lookedUp_of_readsOnly (c : Compilation) {q : Query} (h : q.readsOnly) :
    c.lookedUp q = [] := by
  cases q <;> first | rfl | cases h

/-- A query that looks up no key leaves the compilation as it is, its counts included. -/
theorem ask_of_lookedUp_eq_nil {c : Compilation} {q : Query} (h : c.lookedUp q = []) :
    (c.ask q).2 = c := by
  rw [ask_eq, h, Store.resolveAll_nil]

theorem balanced_ask {c : Compilation} {asked : Nat} (hc : c.store.Consistent c.catalog ∅)
    (h : c.store.Balanced 0 asked) (q : Query) :
    (c.ask q).2.store.Balanced 0 (asked + (c.lookedUp q).length) := by
  rw [ask_eq]
  exact h.resolveAll hc _

theorem balanced_after {c : Compilation} (hc : c.store.Reached c.catalog) {asked : Nat}
    (h : c.store.Balanced 0 asked) (qs : List Query) :
    (c.after qs).store.Balanced 0 (asked + (qs.flatMap c.lookedUp).length) := by
  induction qs generalizing c asked with
  | nil => exact h
  | cons q qs ih =>
    have hrest := ih (reached_ask hc q) (balanced_ask hc.consistent h q)
    rw [List.flatMap_cons, List.length_append, ← Nat.add_assoc]
    rwa [lookedUp_ask] at hrest

theorem length_withCode_diagnostics (c : Compilation) :
    (c.diagnostics.withCode "W0102").length = c.store.cycleReports := by
  rw [diagnostics, DiagnosticLog.withCode, Array.toList_map, ← List.countP_eq_length_filter,
    List.countP_map]
  rfl

end Compilation

/-- In every history each settled key was missed once, and the arena has one further type for each
report on a cycle. Every key that a query looked up and every base link was a hit, was a miss or got
a placeholder. A refused query and one that only reads leave all counts as they are. -/
theorem counts_balance (s : Snapshot) (qs : List Query) :
    let c := (Compilation.create s).after qs
    let asked := (qs.flatMap (Compilation.create s).lookedUp).length
    c.store.count.misses = c.store.settled.size ∧
    c.size = c.store.count.misses + (c.diagnostics.withCode "W0102").length ∧
    (c.diagnostics.withCode "W0102").length = c.store.placeholders ∧
    c.store.count.hits + c.store.count.misses + c.store.placeholders = asked + c.store.links ∧
    (∀ k fault, k.fault? = some fault → c.ask (.resolve k) = (.refused fault, c)) ∧
    ∀ q, q.readsOnly → (c.ask q).2 = c := by
  intro c asked
  have hempty : (Compilation.create s).store.Balanced 0 0 := .empty
  have h : c.store.Balanced 0 (0 + asked) := Compilation.balanced_after .empty hempty qs
  have hlog := c.length_withCode_diagnostics.trans h.reported
  refine ⟨h.misses, ?_, hlog, ?_, ?_, ?_⟩
  · rw [hlog, h.misses]
    exact h.size
  · have hlookups := h.lookups
    rwa [Nat.zero_add] at hlookups
  · intro k fault hk
    rw [Compilation.ask, Compilation.resolve_of_fault hk]
  · intro q hq
    exact Compilation.ask_of_lookedUp_eq_nil (c.lookedUp_of_readsOnly hq)

/-- Of two classes that inherit from each other one gets a placeholder for a base type. A check
finds both settled. -/
theorem counts_balance_loop :
    let qs : List Query := [.resolve ⟨"", "A", 0⟩, .resolve ⟨"", "", 0⟩, .checkAll]
    let c := (Compilation.create .loop).after qs
    (c.store.count = ⟨2, 2⟩ ∧ c.store.placeholders = 1 ∧ c.store.links = 2 ∧
      c.store.count.hits + c.store.count.misses + c.store.placeholders = 3 + c.store.links) ∧
    c.ask (.resolve ⟨"", "", 0⟩) = (.refused .emptyName, c) ∧
    ∀ t, (c.ask (.closure t)).2 = c := by
  intro qs c
  obtain ⟨-, -, -, hlookups, hrefused, hreads⟩ := counts_balance .loop qs
  have hcount : c.store.count = ⟨2, 2⟩ := by decide +kernel
  have hplaceholders : c.store.placeholders = 1 := by decide +kernel
  have hlinks : c.store.links = 2 := by decide +kernel
  have hasked : (qs.flatMap (Compilation.create .loop).lookedUp).length = 3 := by decide +kernel
  rw [hasked] at hlookups
  exact ⟨⟨hcount, hplaceholders, hlinks, hlookups⟩, hrefused _ _ (by decide +kernel),
    fun t => hreads (.closure t) rfl⟩

end TypeCatalog
