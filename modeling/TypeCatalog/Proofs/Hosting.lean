import TypeCatalog.Proofs.Content
import TypeCatalog.Proofs.Permanence
import TypeCatalog.Workspace

/-!
# Runs of a host

What can be done with a host, and a host after any finite number of operations. Each write publishes
a higher number than all before it, whatever snapshot the change returns. So the compilation that a
host shares is always one of the current snapshot, all compilations that it handed out before have
lower numbers, and no write reaches them: a compilation changes by the queries put to it and by
nothing else.
-/

namespace TypeCatalog

namespace Workspace

theorem get?_create (w : Workspace) (s : Snapshot) (i : CompilationId) : (w.create s).2.get? i =
    if i = w.compilations.size then some (.create s) else w.get? i := by
  simp [get?, create, Array.getElem?_push]

theorem lt_size_of_get? {w : Workspace} {id : CompilationId} {c : Compilation}
    (h : w.get? id = some c) : id < w.compilations.size :=
  (Array.getElem?_eq_some_iff.1 h).1

theorem get?_set {w : Workspace} {id : CompilationId} {c : Compilation} (h : w.get? id = some c)
    (c' : Compilation) (i : CompilationId) :
    (w.set id c').get? i = if i = id then some c' else w.get? i := by
  have hlt := lt_size_of_get? h
  simp only [get?, set, Array.getElem?_setIfInBounds, hlt, if_true, eq_comm]

end Workspace

theorem Compilation.version_after (c : Compilation) (qs : List Query) :
    (c.after qs).version = c.version :=
  congrArg Snapshot.version (c.snapshot_after qs)

namespace Host

/-- What can be done with a host and with the compilations that it hands out. -/
inductive Operation where
  | apply (change : Snapshot → Snapshot)
  /-- A writer for one update, such as the setting of a file. -/
  | update (u : Update)
  | compilation
  | snapshot
  | version
  /-- A query to a compilation that was handed out, however long ago. -/
  | ask (id : CompilationId) (q : Query)

inductive Reply where
  | published (n : Nat)
  | compilation (id : CompilationId)
  | snapshot (s : Snapshot)
  | version (n : Nat)
  | answer (a : Answer)
  /-- No compilation has the number. -/
  | missing

/-- The change that a write makes to the current snapshot. No other operation makes one. -/
def Operation.change? : Operation → Option (Snapshot → Snapshot)
  | .apply change => some change
  | .update u => some (·.update u)
  | _ => none

def Operation.query? (id : CompilationId) : Operation → Option Query
  | .ask i q => if i = id then some q else none
  | _ => none

/-- The queries to one compilation, in their order. -/
def queriesTo (id : CompilationId) (ops : List Operation) : List Query :=
  ops.filterMap (·.query? id)

def Reply.published? : Reply → Option Nat
  | .published n => some n
  | _ => none

def Reply.compilation? : Reply → Option CompilationId
  | .compilation id => some id
  | _ => none

/-- A host and the workspace of its compilations. -/
structure Session where
  host : Host
  workspace : Workspace

namespace Session

/-- A new host in a workspace that may hold any compilations. -/
def start (s : Snapshot) (w : Workspace) : Session :=
  ⟨{ snapshot := s }, w⟩

def perform (st : Session) : Operation → Reply × Session
  | .apply change =>
    let host := st.host.apply change
    (.published host.version, { st with host })
  | .update u =>
    let host := st.host.update u
    (.published host.version, { st with host })
  | .compilation =>
    let (id, host, workspace) := st.host.compilation st.workspace
    (.compilation id, ⟨host, workspace⟩)
  | .snapshot => (.snapshot st.host.snapshot, st)
  | .version => (.version st.host.version, st)
  | .ask id q =>
    match st.workspace.get? id with
    | some c =>
      let (a, c) := c.ask q
      (.answer a, { st with workspace := st.workspace.set id c })
    | none => (.missing, st)

/-- The session after a run of operations. -/
def after (st : Session) (ops : List Operation) : Session :=
  ops.foldl (fun st op => (st.perform op).2) st

def replies (st : Session) : List Operation → List Reply
  | [] => []
  | op :: ops => (st.perform op).1 :: replies (st.perform op).2 ops

/-- The numbers that the writes of a run return. -/
def published (st : Session) (ops : List Operation) : List Nat :=
  (st.replies ops).filterMap Reply.published?

/-- The compilations that the host hands out in a run. -/
def handed (st : Session) (ops : List Operation) : List CompilationId :=
  (st.replies ops).filterMap Reply.compilation?

variable {st : Session} {op : Operation} {id : CompilationId}

theorem after_append (st : Session) (ops ops' : List Operation) :
    st.after (ops ++ ops') = (st.after ops).after ops' :=
  List.foldl_append

/-! ## Writes -/

/-- A write publishes what the change makes of the current snapshot, under a number of its own if
that is higher than the current one, and no compilation is shared then. -/
theorem perform_write {change : Snapshot → Snapshot} (h : op.change? = some change) :
    st.perform op = (.published (max (change st.host.snapshot).version (st.host.version + 1)),
      ⟨⟨(change st.host.snapshot).after st.host.version, none⟩, st.workspace⟩) := by
  cases op <;> cases h <;> rfl

theorem perform_update (u : Update) :
    (st.perform (.update u)).1 = .published (st.host.version + 1) :=
  congrArg Reply.published (st.host.version_update u)

theorem published?_perform_write {change : Snapshot → Snapshot} (h : op.change? = some change) :
    (st.perform op).1.published? = some (st.perform op).2.host.version := by
  rw [perform_write h]
  rfl

/-- What is no write publishes nothing, and leaves the snapshot and the shared compilation. -/
theorem perform_read (st : Session) (h : op.change? = none) : (st.perform op).1.published? = none ∧
    (st.perform op).2.host.snapshot = st.host.snapshot ∧
      ∀ id, st.host.shared = some id → (st.perform op).2.host.shared = some id := by
  cases op with
  | apply change => cases h
  | update u => cases h
  | compilation =>
    refine ⟨rfl, ?_, fun id hs => ?_⟩
    · simp only [perform, Host.compilation]
      split <;> rfl
    · simp only [perform, Host.compilation, hs]
  | snapshot => exact ⟨rfl, rfl, fun _ hs => hs⟩
  | version => exact ⟨rfl, rfl, fun _ hs => hs⟩
  | ask i q =>
    simp only [perform]
    cases st.workspace.get? i with
    | some c => exact ⟨rfl, rfl, fun _ hs => hs⟩
    | none => exact ⟨rfl, rfl, fun _ hs => hs⟩

theorem version_lt_version_perform {change : Snapshot → Snapshot} (h : op.change? = some change) :
    st.host.version < (st.perform op).2.host.version := by
  rw [perform_write h]
  exact Snapshot.floor_lt_version_after _ _

theorem version_le_version_perform (st : Session) (op : Operation) :
    st.host.version ≤ (st.perform op).2.host.version := by
  cases h : op.change? with
  | some change => exact Nat.le_of_lt (version_lt_version_perform h)
  | none =>
    exact Nat.le_of_eq (congrArg Snapshot.version (st.perform_read h).2.1.symm)

theorem version_le_version_after (st : Session) (ops : List Operation) :
    st.host.version ≤ (st.after ops).host.version := by
  induction ops generalizing st with
  | nil => exact Nat.le_refl _
  | cons op ops ih => exact Nat.le_trans (st.version_le_version_perform op) (ih _)

/-- The number is higher after a run in which there is a write. -/
theorem version_lt_version_after (st : Session) {ops : List Operation}
    {change : Snapshot → Snapshot} (hop : op ∈ ops) (h : op.change? = some change) :
    st.host.version < (st.after ops).host.version := by
  obtain ⟨before, later, rfl⟩ := List.append_of_mem hop
  rw [after_append]
  calc st.host.version
    _ ≤ (st.after before).host.version := st.version_le_version_after before
    _ < ((st.after before).perform op).2.host.version := version_lt_version_perform h
    _ ≤ ((st.after before).after (op :: later)).host.version := version_le_version_after _ later

/-- The numbers that are published are higher than the first one, and each is higher than all
before it. -/
theorem pairwise_published (st : Session) (ops : List Operation) :
    (st.host.version :: st.published ops).Pairwise (· < ·) := by
  induction ops generalizing st with
  | nil => exact List.pairwise_singleton _ _
  | cons op ops ih =>
    have hrest := ih (st.perform op).2
    cases h : op.change? with
    | some change =>
      have hpublished : st.published (op :: ops) =
          (st.perform op).2.host.version :: (st.perform op).2.published ops :=
        List.filterMap_cons_some (published?_perform_write h)
      have hlt : st.host.version < (st.perform op).2.host.version := version_lt_version_perform h
      rw [hpublished]
      refine List.pairwise_cons.2 ⟨fun n hmem => ?_, hrest⟩
      rcases List.mem_cons.1 hmem with rfl | hmem
      · exact hlt
      · exact Nat.lt_trans hlt ((List.pairwise_cons.1 hrest).1 n hmem)
    | none =>
      obtain ⟨hnone, hsnapshot, -⟩ := st.perform_read h
      have hpublished : st.published (op :: ops) = (st.perform op).2.published ops :=
        List.filterMap_cons_none hnone
      rw [hpublished]
      rwa [version, hsnapshot] at hrest

/-! ## Compilations -/

/-- An operation changes a compilation only if it is a query to it. -/
theorem get?_perform {c : Compilation} (h : st.workspace.get? id = some c) (op : Operation) :
    (st.perform op).2.workspace.get? id = some (c.after (op.query? id).toList) := by
  cases op with
  | apply change => exact h
  | update u => exact h
  | compilation =>
    simp only [perform, Host.compilation]
    split
    · exact h
    · have hne : id ≠ st.workspace.compilations.size :=
        Nat.ne_of_lt (Workspace.lt_size_of_get? h)
      exact (Workspace.get?_create _ _ _).trans (by rw [if_neg hne]; exact h)
  | snapshot => exact h
  | version => exact h
  | ask i q =>
    simp only [perform, Operation.query?]
    by_cases hi : i = id
    · subst hi
      rw [h, if_pos rfl]
      exact (Workspace.get?_set h _ _).trans (if_pos rfl)
    · rw [if_neg hi]
      cases hc : st.workspace.get? i with
      | none => exact h
      | some d =>
        refine (Workspace.get?_set hc _ _).trans ?_
        rw [if_neg (Ne.symm hi)]
        exact h

theorem get?_after {c : Compilation} (h : st.workspace.get? id = some c) (ops : List Operation) :
    (st.after ops).workspace.get? id = some (c.after (queriesTo id ops)) := by
  induction ops generalizing st c with
  | nil => exact h
  | cons op ops ih =>
    have hrest := ih (get?_perform h op)
    rw [← Compilation.after_append] at hrest
    have hqueries : queriesTo id (op :: ops) = (op.query? id).toList ++ queriesTo id ops := by
      rw [queriesTo, List.filterMap_cons]
      cases op.query? id <;> rfl
    rw [hqueries]
    exact hrest

/-- The shared compilation is handed out again. -/
theorem perform_compilation_of_shared (h : st.host.shared = some id) :
    st.perform .compilation = (.compilation id, st) := by
  simp only [perform, Host.compilation, h]

/-- If there is none to share, a compilation of the current snapshot is made. -/
theorem perform_compilation_of_none (h : st.host.shared = none) : st.perform .compilation =
    (.compilation st.workspace.compilations.size,
      ⟨{ st.host with shared := some st.workspace.compilations.size },
        (st.workspace.create st.host.snapshot).2⟩) := by
  simp only [perform, Host.compilation, h, Workspace.create]

/-- A compilation is always handed out, and the host shares it from then on. -/
theorem exists_perform_compilation (st : Session) : ∃ id,
    (st.perform .compilation).1 = .compilation id ∧
      (st.perform .compilation).2.host.shared = some id := by
  cases h : st.host.shared with
  | some id => exact ⟨id, by simp [perform_compilation_of_shared h, h]⟩
  | none => exact ⟨_, by rw [perform_compilation_of_none h], by rw [perform_compilation_of_none h]⟩

theorem shared_after (h : st.host.shared = some id) {ops : List Operation}
    (hops : ∀ op ∈ ops, op.change? = none) : (st.after ops).host.shared = some id := by
  induction ops generalizing st with
  | nil => exact h
  | cons op ops ih =>
    have hread := st.perform_read (hops op List.mem_cons_self)
    exact ih (hread.2.2 id h) fun op' hop' => hops op' (List.mem_cons_of_mem _ hop')

/-- What holds of a host that has handed out these compilations: the one it shares is of the current
snapshot, all others are of older ones, and no two are of snapshots with one number. -/
structure Sound (handed : List CompilationId) (st : Session) : Prop where
  current : ∀ {id}, st.host.shared = some id → id ∈ handed ∧
    ∃ qs, st.workspace.get? id = some ((Compilation.create st.host.snapshot).after qs)
  older : ∀ {id}, id ∈ handed → st.host.shared ≠ some id →
    ∃ c, st.workspace.get? id = some c ∧ c.version < st.host.version
  distinct : ∀ {i j c d}, i ∈ handed → j ∈ handed → st.workspace.get? i = some c →
    st.workspace.get? j = some d → c.version = d.version → i = j

namespace Sound

variable {handed : List CompilationId}

theorem start (s : Snapshot) (w : Workspace) : (Session.start s w).Sound [] where
  current h := by cases h
  older h := by cases h
  distinct h := by cases h

/-- The shared compilation has the number of the current snapshot. -/
theorem exists_shared (h : st.Sound handed) (hs : st.host.shared = some id) :
    ∃ c, st.workspace.get? id = some c ∧ c.snapshot = st.host.snapshot := by
  obtain ⟨-, qs, hc⟩ := h.current hs
  exact ⟨_, hc, Compilation.snapshot_after _ qs⟩

theorem exists_of_mem (h : st.Sound handed) (hid : id ∈ handed) :
    ∃ c, st.workspace.get? id = some c ∧ c.version ≤ st.host.version := by
  by_cases hs : st.host.shared = some id
  · obtain ⟨c, hc, hsnapshot⟩ := h.exists_shared hs
    exact ⟨c, hc, Nat.le_of_eq (congrArg Snapshot.version hsnapshot)⟩
  · obtain ⟨c, hc, hlt⟩ := h.older hid hs
    exact ⟨c, hc, Nat.le_of_lt hlt⟩

/-- Neither queries nor a write that drops the shared compilation do harm. -/
theorem keep (h : st.Sound handed) {st' : Session}
    (hget : ∀ {i c}, st.workspace.get? i = some c → ∃ qs, st'.workspace.get? i = some (c.after qs))
    (hhost : st'.host = st.host ∨
      st'.host.shared = none ∧ st.host.version < st'.host.version) : st'.Sound handed := by
  have hold : ∀ {i c'}, i ∈ handed → st'.workspace.get? i = some c' →
      ∃ c, st.workspace.get? i = some c ∧ c'.version = c.version := by
    intro i c' hi hc'
    obtain ⟨c, hc, -⟩ := h.exists_of_mem hi
    obtain ⟨qs, hqs⟩ := hget hc
    obtain rfl : c.after qs = c' := Option.some.inj (hqs.symm.trans hc')
    exact ⟨c, hc, c.version_after qs⟩
  constructor
  case current =>
    intro id hs
    rcases hhost with hhost | ⟨hnone, -⟩
    · rw [hhost] at hs
      obtain ⟨hid, qs, hc⟩ := h.current hs
      obtain ⟨qs', hc'⟩ := hget hc
      rw [← Compilation.after_append] at hc'
      exact ⟨hid, qs ++ qs', hhost ▸ hc'⟩
    · rw [hnone] at hs
      cases hs
  case older =>
    intro id hid hs
    have hlt : ∃ c, st.workspace.get? id = some c ∧ c.version < st'.host.version := by
      rcases hhost with hhost | ⟨-, hversion⟩
      · rw [hhost] at hs ⊢
        exact h.older hid hs
      · obtain ⟨c, hc, hle⟩ := h.exists_of_mem hid
        exact ⟨c, hc, Nat.lt_of_le_of_lt hle hversion⟩
    obtain ⟨c, hc, hlt⟩ := hlt
    obtain ⟨qs, hc'⟩ := hget hc
    exact ⟨_, hc', Nat.lt_of_le_of_lt (Nat.le_of_eq (c.version_after qs)) hlt⟩
  case distinct =>
    intro i j c' d' hi hj hc' hd' hversion
    obtain ⟨c, hc, hcv⟩ := hold hi hc'
    obtain ⟨d, hd, hdv⟩ := hold hj hd'
    exact h.distinct hi hj hc hd (hcv.symm.trans (hversion.trans hdv))

/-- A new compilation has a higher number than all that were handed out before. -/
theorem create (h : st.Sound handed) (hs : st.host.shared = none) :
    Sound (handed ++ [st.workspace.compilations.size])
      ⟨{ st.host with shared := some st.workspace.compilations.size },
        (st.workspace.create st.host.snapshot).2⟩ := by
  have hnew : (st.workspace.create st.host.snapshot).2.get? st.workspace.compilations.size =
      some (.create st.host.snapshot) := by
    rw [Workspace.get?_create, if_pos rfl]
  have hold : ∀ {i}, i ∈ handed → ∃ c, st.workspace.get? i = some c ∧
      (st.workspace.create st.host.snapshot).2.get? i = some c ∧ c.version < st.host.version := by
    intro i hi
    obtain ⟨c, hc, hlt⟩ := h.older hi (by simp [hs])
    refine ⟨c, hc, ?_, hlt⟩
    rwa [Workspace.get?_create, if_neg (Nat.ne_of_lt (Workspace.lt_size_of_get? hc))]
  constructor
  case current =>
    intro id hid
    obtain rfl := Option.some.inj hid
    exact ⟨List.mem_append_right _ (List.mem_singleton.2 rfl), [], hnew⟩
  case older =>
    intro id hid hne
    rcases List.mem_append.1 hid with hid | hid
    · obtain ⟨c, -, hc⟩ := hold hid
      exact ⟨c, hc⟩
    · exact absurd (congrArg some (List.mem_singleton.1 hid).symm) hne
  case distinct =>
    -- an old compilation and the new one cannot have one number
    have hne : ∀ {i c d}, i ∈ handed →
        (st.workspace.create st.host.snapshot).2.get? i = some c →
        (st.workspace.create st.host.snapshot).2.get? st.workspace.compilations.size = some d →
        c.version ≠ d.version := by
      intro i c d hi hc hd
      obtain ⟨c', -, hc', hlt⟩ := hold hi
      obtain rfl := Option.some.inj (hc.symm.trans hc')
      obtain rfl := Option.some.inj (hd.symm.trans hnew)
      exact Nat.ne_of_lt hlt
    intro i j c d hi hj hc hd hversion
    rcases List.mem_append.1 hi with hi | hi <;> rcases List.mem_append.1 hj with hj | hj
    · obtain ⟨c', hc', hcnew, -⟩ := hold hi
      obtain ⟨d', hd', hdnew, -⟩ := hold hj
      obtain rfl := Option.some.inj (hc.symm.trans hcnew)
      obtain rfl := Option.some.inj (hd.symm.trans hdnew)
      exact h.distinct hi hj hc' hd' hversion
    · obtain rfl := List.mem_singleton.1 hj
      exact absurd hversion (hne hi hc hd)
    · obtain rfl := List.mem_singleton.1 hi
      exact absurd hversion.symm (hne hj hd hc)
    · exact (List.mem_singleton.1 hi).trans (List.mem_singleton.1 hj).symm

/-- To hand out a compilation again makes no difference. -/
theorem congr (h : st.Sound handed) {handed' : List CompilationId}
    (hmem : ∀ i, i ∈ handed' ↔ i ∈ handed) : st.Sound handed' where
  current hs := ⟨(hmem _).2 (h.current hs).1, (h.current hs).2⟩
  older hid := h.older ((hmem _).1 hid)
  distinct hi hj := h.distinct ((hmem _).1 hi) ((hmem _).1 hj)

theorem perform (h : st.Sound handed) (op : Operation) :
    (st.perform op).2.Sound (handed ++ (st.perform op).1.compilation?.toList) := by
  have hget : ∀ {i c}, st.workspace.get? i = some c →
      ∃ qs, (st.perform op).2.workspace.get? i = some (c.after qs) :=
    fun hc => ⟨_, get?_perform hc op⟩
  cases hop : op.change? with
  | some change =>
    have hnone : (st.perform op).1.compilation? = none := by
      rw [perform_write hop]
      rfl
    rw [hnone, Option.toList_none, List.append_nil]
    exact h.keep hget (.inr ⟨by rw [perform_write hop], version_lt_version_perform hop⟩)
  | none =>
    cases op with
    | apply change => cases hop
    | update u => cases hop
    | compilation =>
      cases hs : st.host.shared with
      | some id =>
        rw [perform_compilation_of_shared hs]
        refine h.congr fun i => ?_
        rw [List.mem_append, or_iff_left_iff_imp]
        intro hi
        exact List.mem_singleton.1 hi ▸ (h.current hs).1
      | none =>
        rw [perform_compilation_of_none hs]
        exact h.create hs
    | snapshot => exact (List.append_nil handed).symm ▸ h
    | version => exact (List.append_nil handed).symm ▸ h
    | ask i q =>
      have hreply : (st.perform (.ask i q)).1.compilation? = none ∧
          (st.perform (.ask i q)).2.host = st.host := by
        simp only [Session.perform]
        split <;> exact ⟨rfl, rfl⟩
      rw [hreply.1, Option.toList_none, List.append_nil]
      exact h.keep hget (.inl hreply.2)

theorem after (h : st.Sound handed) (ops : List Operation) :
    (st.after ops).Sound (handed ++ st.handed ops) := by
  induction ops generalizing st handed with
  | nil => exact (List.append_nil handed).symm ▸ h
  | cons op ops ih =>
    have hrest := ih (h.perform op)
    have hhanded : st.handed (op :: ops) =
        (st.perform op).1.compilation?.toList ++ (st.perform op).2.handed ops := by
      rw [Session.handed, replies, List.filterMap_cons]
      cases (st.perform op).1.compilation? <;> rfl
    rwa [hhanded, ← List.append_assoc]

/-- Two requests are answered with one compilation exactly if there is no write between them. -/
theorem compilation_eq_iff (h : st.Sound handed) (between : List Operation) :
    (((st.perform .compilation).2.after between).perform .compilation).1 =
      (st.perform .compilation).1 ↔ ∀ op ∈ between, op.change? = none := by
  obtain ⟨id, hid, hs⟩ := st.exists_perform_compilation
  have hfirst := h.perform .compilation
  generalize st.perform .compilation = first at hid hs hfirst ⊢
  have hbetween := hfirst.after between
  constructor
  · intro heq op hop
    by_contra hne
    obtain ⟨change, hchange⟩ := Option.ne_none_iff_exists'.1 hne
    have hlt := first.2.version_lt_version_after hop hchange
    obtain ⟨c, hc, hsnapshot⟩ := hfirst.exists_shared hs
    -- the first compilation keeps its number, and the second has the current one
    have hold := get?_perform (get?_after hc between) .compilation
    obtain ⟨id', hid', hs'⟩ := (first.2.after between).exists_perform_compilation
    obtain rfl : id' = id := by
      rw [hid', hid] at heq
      injection heq
    obtain ⟨c', hc', hsnapshot'⟩ := (hbetween.perform .compilation).exists_shared hs'
    have hsame : c'.snapshot = c.snapshot := by
      rw [← Option.some.inj (hold.symm.trans hc'), Compilation.snapshot_after,
        Compilation.snapshot_after]
    rw [hsnapshot', hsnapshot, ((first.2.after between).perform_read rfl).2.1] at hsame
    exact absurd (congrArg Snapshot.version hsame) (Nat.ne_of_gt hlt)
  · intro hread
    rw [perform_compilation_of_shared (shared_after hs hread), hid]

end Sound

end Session
end Host

namespace Compilation

/-- A compilation in a later state: it has its number, it resolves each settled key to the type it
was resolved to before, and it tells the same of all keys. -/
structure Lasts (c c' : Compilation) : Prop where
  version : c'.version = c.version
  settled : ∀ k t, c.store.find? k = some t → (c'.lookup k).1 = t
  describe : ∀ k, c'.describe k = c.describe k

theorem lasts_after (s : Snapshot) (qs later : List Query) :
    Lasts ((create s).after qs) (((create s).after qs).after later) where
  version := version_after _ later
  settled k t ht := by
    have hg := grows_after_append s qs later
    rw [after_append] at hg
    rw [lookup, Store.resolve_of_settled _ (hg.find? ht)]
  describe k := by
    rw [← after_append, describe_after, describe_after]

end Compilation

/-- In every run of a host each write publishes what its change makes of the current snapshot, under
a number above all before it. The compilation that the host shares is of the current snapshot, is
handed out until the next write and no longer, and has a number that no other compilation of the
host has. Once handed out, a compilation changes by the queries put to it only, and it lasts. -/
theorem host_hands_out_current (s : Snapshot) (w : Workspace) (ops : List Host.Operation) :
    let start := Host.Session.start s w
    let st := start.after ops
    (∀ op change, op.change? = some change →
      let next := change st.host.snapshot
      let version := max next.version (st.host.version + 1)
      (st.perform op).1 = .published version ∧
        (st.perform op).2.host.snapshot = ⟨next.project, version⟩) ∧
    (s.version :: start.published ops).Pairwise (· < ·) ∧
    (∀ u, (st.perform (.update u)).1 = .published (st.host.version + 1)) ∧
    (∀ id, st.host.shared = some id →
      ∃ c, st.workspace.get? id = some c ∧ c.snapshot = st.host.snapshot) ∧
    (∀ between, (((st.perform .compilation).2.after between).perform .compilation).1 =
      (st.perform .compilation).1 ↔ ∀ op ∈ between, op.change? = none) ∧
    (∀ i ∈ start.handed ops, (st.workspace.get? i).isSome) ∧
    (∀ i ∈ start.handed ops, ∀ j ∈ start.handed ops, ∀ c d, st.workspace.get? i = some c →
      st.workspace.get? j = some d → c.version = d.version → i = j) ∧
    ∃ id c, (st.perform .compilation).1 = .compilation id ∧
      (st.perform .compilation).2.workspace.get? id = some c ∧ c.snapshot = st.host.snapshot ∧
      ∀ later, ((st.perform .compilation).2.after later).workspace.get? id =
          some (c.after (Host.queriesTo id later)) ∧
        c.Lasts (c.after (Host.queriesTo id later)) := by
  intro start st
  have h : st.Sound (start.handed ops) := (Host.Session.Sound.start s w).after ops
  refine ⟨?_, start.pairwise_published ops, Host.Session.perform_update, ?_, ?_, ?_, ?_, ?_⟩
  · intro op change hop
    rw [Host.Session.perform_write hop]
    exact ⟨rfl, rfl⟩
  · exact fun id hs => h.exists_shared hs
  · exact h.compilation_eq_iff
  · intro i hi
    obtain ⟨c, hc, -⟩ := h.exists_of_mem hi
    exact Option.isSome_iff_exists.2 ⟨c, hc⟩
  · exact fun i hi j hj c d hc hd => h.distinct hi hj hc hd
  · obtain ⟨id, hid, hs⟩ := st.exists_perform_compilation
    obtain ⟨-, qs, hc⟩ := (h.perform .compilation).current hs
    have hsnapshot : (st.perform .compilation).2.host.snapshot = st.host.snapshot :=
      (st.perform_read rfl).2.1
    refine ⟨id, _, hid, hc, (Compilation.snapshot_after _ qs).trans hsnapshot, fun later => ?_⟩
    exact ⟨Host.Session.get?_after hc later, Compilation.lasts_after _ qs _⟩

/-- A change that goes back to the first snapshot is published under the next number. -/
theorem host_hands_out_current_loop :
    let ops := [.compilation, .ask 0 (.resolve ⟨"", "A", 0⟩), .update (.removeFile "a.cs"),
      .compilation]
    let start := Host.Session.start .loop {}
    let st := start.after ops
    let back := st.perform (.apply fun _ => .initial)
    (back.1 = .published 3 ∧ back.2.host.snapshot = ⟨{}, 3⟩) ∧
    (∃ c, st.workspace.get? 1 = some c ∧ c.snapshot = st.host.snapshot) ∧
    (((st.perform .compilation).2.after [.version]).perform .compilation).1 =
      (st.perform .compilation).1 ∧
    ∃ c d, st.workspace.get? 0 = some c ∧ st.workspace.get? 1 = some d ∧ c.version ≠ d.version := by
  intro ops start st back
  obtain ⟨hwrite, -, -, hshared, hsame, hheld, hdistinct, -⟩ :=
    host_hands_out_current .loop {} ops
  have hversion : st.host.version = 2 := by decide +kernel
  have hhanded : start.handed ops = [0, 1] := by decide +kernel
  have hfirst : 0 ∈ start.handed ops := by simp [hhanded]
  have hsecond : 1 ∈ start.handed ops := by simp [hhanded]
  have hback := hwrite (.apply fun _ => .initial) (fun _ => .initial) rfl
  rw [hversion] at hback
  obtain ⟨c, hc⟩ := Option.isSome_iff_exists.1 (hheld 0 hfirst)
  obtain ⟨d, hd⟩ := Option.isSome_iff_exists.1 (hheld 1 hsecond)
  have hread : ∀ op ∈ [Host.Operation.version], op.change? = none := by
    intro op hop
    rw [List.mem_singleton.1 hop]
    rfl
  have hne : c.version ≠ d.version :=
    fun heq => absurd (hdistinct 0 hfirst 1 hsecond c d hc hd heq) (by decide)
  exact ⟨hback, hshared 1 (by decide +kernel), (hsame [.version]).2 hread, c, d, hc, hd, hne⟩

end TypeCatalog
