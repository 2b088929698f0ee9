import Mathlib.Data.List.Basic
import TypeCatalog.Proofs.Lookup

/-!
# The account of the reports

What should be reported on a key follows from its declarations and from the types that its links
are bound to. The account of a store lists this for every settled type. While a look-up goes on,
each frame has an account of its own for the links it has bound so far. No move makes a report that
no account has, or leaves one out: reports and accounts are always permutations of each other.
-/

namespace TypeCatalog

/-- One element alone makes up what a list is mapped to if those with other keys add nothing. -/
theorem flatMap_eq_of_mem {α β κ : Type} {key : α → κ} {f : α → List β} {l : List α}
    (hn : (l.map key).Nodup) {a : α} (ha : a ∈ l) (h : ∀ b ∈ l, key b ≠ key a → f b = []) :
    l.flatMap f = f a := by
  obtain ⟨l₁, l₂, rfl⟩ := List.append_of_mem ha
  rw [List.map_append, List.map_cons, List.nodup_append] at hn
  obtain ⟨-, hn₂, hne⟩ := hn
  have h₁ : l₁.flatMap f = [] := List.flatMap_eq_nil_iff.2 fun b hb =>
    h b (by simp [hb]) (hne _ (List.mem_map_of_mem hb) _ List.mem_cons_self)
  have h₂ : l₂.flatMap f = [] := List.flatMap_eq_nil_iff.2 fun b hb =>
    h b (by simp [hb]) fun he => (List.nodup_cons.1 hn₂).1 (he ▸ List.mem_map_of_mem hb)
  rw [List.flatMap_append, List.flatMap_cons, h₁, h₂, List.nil_append, List.append_nil]

/-- What is reported on a link of a key that is bound to a type. -/
def BaseLink.reports (link : BaseLink) (subject : TypeKey) (t : ResolvedType) : List Report :=
  match t.unknownReason? with
  | some .cycle => [⟨link.file, subject, .circularBase link.key⟩]
  | some .unresolved =>
    if link.explicit then [⟨link.file, subject, .unresolvedBase link.key⟩] else []
  | none => []

/-- The reports on the declarations of a key are on that key, and on no cycle. -/
theorem Catalog.subject_of_mem_reports {c : Catalog} {k : TypeKey} {r : Report}
    (h : r ∈ c.reports k) : r.subject = k ∧ ∀ base, r.condition ≠ .circularBase base := by
  unfold reports outline? at h
  split at h
  · simp only [Option.map_some, Option.getD_some, Outline.ofParts, List.mem_append,
      Outline.duplicates, Outline.kindConflicts, List.mem_map] at h
    obtain ⟨part, -, rfl⟩ | ⟨part, -, rfl⟩ := h
    · exact ⟨rfl, by simp⟩
    · exact ⟨rfl, by simp⟩
  · cases he : c.findExport? k with
    | none => simp [he] at h
    | some e => simp [he, Outline.ofExport] at h

/-- A report on a link is on the subject, and on a cycle only if the link is bound to a placeholder
for one. -/
theorem BaseLink.subject_of_mem_reports {link : BaseLink} {k : TypeKey} {t : ResolvedType}
    {r : Report} (h : r ∈ link.reports k t) : r.subject = k ∧
      ∀ base, r.condition = .circularBase base ↔ t.binding = .unknown .cycle ∧ link.key = base := by
  obtain ⟨id, key, binding⟩ := t
  unfold reports ResolvedType.unknownReason? at h
  cases binding with
  | declared d bases => cases h
  | unknown reason =>
    cases reason with
    | cycle =>
      obtain rfl := List.mem_singleton.1 h
      simp
    | unresolved =>
      simp only at h
      split at h
      · obtain rfl := List.mem_singleton.1 h
        simp
      · cases h

namespace Store

def linkReports (s : Store) (subject : TypeKey) : BaseLink × TypeId → List Report
  | (link, id) => ((s.get? id).map (link.reports subject)).getD []

/-- What is reported on a key whose first links are bound to these types. -/
def account (c : Catalog) (s : Store) (k : TypeKey) (bases : List TypeId) : List Report :=
  c.reports k ++ ((c.links k).zip bases).flatMap (s.linkReports k)

theorem mem_account_iff {c : Catalog} {s : Store} {k : TypeKey} {bases : List TypeId} {r : Report} :
    r ∈ s.account c k bases ↔ r ∈ c.reports k ∨ ∃ link id t, (link, id) ∈ (c.links k).zip bases ∧
      s.get? id = some t ∧ r ∈ link.reports k t := by
  rw [account, List.mem_append, List.mem_flatMap]
  refine or_congr_right ⟨?_, ?_⟩
  · rintro ⟨⟨link, id⟩, hp, hr⟩
    cases ht : s.get? id with
    | none => simp [linkReports, ht] at hr
    | some t => exact ⟨link, id, t, hp, ht, by simpa [linkReports, ht] using hr⟩
  · rintro ⟨link, id, t, hp, ht, hr⟩
    exact ⟨(link, id), hp, by simpa [linkReports, ht] using hr⟩

theorem subject_of_mem_account {c : Catalog} {s : Store} {k : TypeKey} {bases : List TypeId}
    {r : Report} (h : r ∈ s.account c k bases) : r.subject = k := by
  rcases mem_account_iff.1 h with hr | ⟨link, id, t, -, -, hr⟩
  · exact (Catalog.subject_of_mem_reports hr).1
  · exact (BaseLink.subject_of_mem_reports hr).1

/-- Nothing is reported on a cycle placeholder; the key it stands for has a type of its own. -/
def accountOf (c : Catalog) (s : Store) (t : ResolvedType) : List Report :=
  if t.binding = .unknown .cycle then [] else s.account c t.key t.bases

def accounts (c : Catalog) (s : Store) : List Report :=
  s.arena.toList.flatMap (s.accountOf c)

/-- Every report is due, and is made as often as it is due. -/
def Accounted (c : Catalog) (s : Store) : Prop :=
  s.reports.toList.Perm (s.accounts c)

theorem reports_reportMissing (s : Store) (subject : TypeKey) (link : BaseLink) {t : ResolvedType}
    (ht : t.binding ≠ .unknown .cycle) : (s.reportMissing subject link t).reports.toList =
      s.reports.toList ++ link.reports subject t := by
  obtain ⟨id, key, binding⟩ := t
  unfold reportMissing BaseLink.reports
  cases binding with
  | declared d bases => simp [ResolvedType.unknownReason?]
  | unknown reason =>
    cases reason with
    | cycle => exact absurd rfl ht
    | unresolved => cases h : link.explicit <;> simp [ResolvedType.unknownReason?]

/-- An account hangs on the arena only. -/
theorem account_congr (c : Catalog) {s s' : Store} (h : s'.arena = s.arena) :
    s'.account c = s.account c := by
  have hl : s'.linkReports = s.linkReports := by
    funext k p
    rw [linkReports, linkReports, get?_congr h]
  funext k bases
  rw [account, account, hl]

theorem accounts_congr (c : Catalog) {s s' : Store} (h : s'.arena = s.arena) :
    s'.accounts c = s.accounts c := by
  have ha : s'.accountOf c = s.accountOf c := by
    funext t
    rw [accountOf, accountOf, account_congr c h]
  rw [accounts, accounts, ha, h]

/-- What is added to a store later makes no difference to the account of types it had before. -/
theorem account_mono (c : Catalog) {s s' : Store} (hg : s.Grows s') (k : TypeKey)
    {bases : List TypeId} (hb : ∀ b ∈ bases, b < s.arena.size) :
    s'.account c k bases = s.account c k bases := by
  have hl : ∀ p ∈ (c.links k).zip bases, s'.linkReports k p = s.linkReports k p := by
    rintro ⟨link, id⟩ hp
    have hid : id < s.arena.size := hb id (List.of_mem_zip hp).2
    have ht : s.get? id = some s.arena[id] := Array.getElem?_eq_getElem hid
    rw [linkReports, linkReports, ht, hg.get? ht]
  rw [account, account, List.flatMap_congr hl]

/-- One more link adds what is reported on that link. -/
theorem account_concat {c : Catalog} {s : Store} {k : TypeKey} {done rest : List BaseLink}
    {link : BaseLink} {bases : List TypeId} {t : ResolvedType}
    (hd : c.links k = done ++ link :: rest) (hl : done.length = bases.length)
    (ht : s.get? t.id = some t) :
    s.account c k (bases ++ [t.id]) = s.account c k bases ++ link.reports k t := by
  have hz : (done ++ link :: rest).zip bases = done.zip bases := by
    have h : (done ++ link :: rest).zip (bases ++ []) = done.zip bases ++ [] := List.zip_append hl
    simpa using h
  rw [account, account, hd, List.zip_append hl, hz, List.flatMap_append]
  simp [linkReports, ht]

/-- A new type adds its own account. -/
theorem Consistent.accounts_push {c : Catalog} {o : Std.TreeSet TypeKey} {s s' : Store}
    (h : s.Consistent c o) (hg : s.Grows s') {t : ResolvedType}
    (ha : s'.arena = s.arena.push t) : s'.accounts c = s.accounts c ++ s'.accountOf c t := by
  have hold : ∀ u ∈ s.arena.toList, s'.accountOf c u = s.accountOf c u := by
    intro u hu
    have hget := h.get?_of_mem_arena hu
    have hb : ∀ b ∈ u.bases, b < s.arena.size :=
      fun b hm => Nat.lt_trans (h.base_lt hget b hm) (lt_size_of_get? hget)
    rw [accountOf, accountOf, account_mono c hg u.key hb]
  rw [accounts, accounts, ha, Array.toList_push, List.flatMap_append, List.flatMap_congr hold]
  simp

end Store

namespace Machine

/-- What is due for the links that the frames have bound so far. -/
def frameAccounts (c : Catalog) (s : Store) (frames : List Frame) : List Report :=
  frames.flatMap fun f => s.account c f.key f.bound.toList

theorem frameAccounts_cons (c : Catalog) (s : Store) (f : Frame) (frames : List Frame) :
    frameAccounts c s (f :: frames) =
      s.account c f.key f.bound.toList ++ frameAccounts c s frames := rfl

/-- What is due in the middle of a look-up. -/
def accounts (c : Catalog) (m : Machine) : List Report :=
  m.store.accounts c ++ frameAccounts c m.store (m.current :: m.waiting.map Waiting.frame)

def Accounted (c : Catalog) (m : Machine) : Prop :=
  m.store.reports.toList.Perm (m.accounts c)

theorem Fits.bound_lt_size {c : Catalog} {s : Store} {f : Frame} {links : List BaseLink}
    (h : Fits c s f links) : ∀ b ∈ f.bound.toList, b < s.arena.size := by
  obtain ⟨done, -, hb⟩ := h.bound
  intro b hm
  obtain ⟨link, -, hl⟩ := Store.exists_bound_of_mem hb hm
  exact hl.lt_size

theorem Fits.account_mono {c : Catalog} {s s' : Store} (hg : s.Grows s') {f : Frame}
    {links : List BaseLink} (h : Fits c s f links) :
    s'.account c f.key f.bound.toList = s.account c f.key f.bound.toList :=
  Store.account_mono c hg f.key h.bound_lt_size

theorem Awaits.account_mono {c : Catalog} {s s' : Store} (hg : s.Grows s') {k : TypeKey}
    {waiting : List Waiting} (h : Awaits c s k waiting) :
    frameAccounts c s' (waiting.map Waiting.frame) =
      frameAccounts c s (waiting.map Waiting.frame) := by
  induction waiting generalizing k with
  | nil => rfl
  | cons w waiting ih =>
    rw [List.map_cons, frameAccounts_cons, frameAccounts_cons, h.2.1.account_mono hg, ih h.2.2]

/-- A frame that binds its next link owes what is reported on that link. -/
theorem Fits.account_bind {c : Catalog} {s s' : Store} (hg : s.Grows s') {f : Frame}
    {link : BaseLink} {links : List BaseLink} (h : Fits c s f (link :: links)) {t : ResolvedType}
    (ht : s'.get? t.id = some t) :
    s'.account c f.key (f.bind t).bound.toList =
      s.account c f.key f.bound.toList ++ link.reports f.key t := by
  obtain ⟨done, hd, hb⟩ := h.bound
  rw [Frame.bind, Array.toList_push, Store.account_concat hd hb.length_eq ht, h.account_mono hg]

theorem accounts_bind {c : Catalog} {s s' : Store} (hg : s.Grows s') {f : Frame} {link : BaseLink}
    {links : List BaseLink} (hf : Fits c s f (link :: links)) {k : TypeKey}
    {waiting : List Waiting} (hw : Awaits c s k waiting) {t : ResolvedType}
    (ht : s'.get? t.id = some t) (o : Std.TreeSet TypeKey) :
    accounts c ⟨s', o, f.bind t, waiting⟩ = s'.accounts c ++
      (s.account c f.key f.bound.toList ++ link.reports f.key t ++
        frameAccounts c s (waiting.map Waiting.frame)) := by
  have hbind := hf.account_bind hg ht
  rw [accounts, frameAccounts_cons, hw.account_mono hg]
  exact congrArg _ (congrArg (· ++ _) hbind)

/-- A frame does not become a cycle placeholder. -/
theorem Fits.binding_ne_cycle {c : Catalog} {s : Store} {f : Frame} {links : List BaseLink}
    (h : Fits c s f links) : f.binding ≠ .unknown .cycle := by
  rw [h.binding_eq]
  exact Store.binding_ne_cycle c _ _

/-- A frame that is closed leaves its account to the type it becomes. -/
theorem Fits.accountOf_next {c : Catalog} {s s' : Store} (hg : s.Grows s') {f : Frame}
    (h : Fits c s f []) :
    s'.accountOf c (s.next f.key f.binding) = s.account c f.key f.bound.toList := by
  have hne : (s.next f.key f.binding).binding ≠ .unknown .cycle := h.binding_ne_cycle
  have hbases : (s.next f.key f.binding).bases = f.bound.toList := by
    rw [h.binding_eq]
    exact Store.bases_binding h.bound_all _
  rw [Store.accountOf, if_neg hne, hbases, Store.key_next, h.account_mono hg]

/-- A new frame owes what is reported on the declarations of its key. -/
theorem accounts_openKey (c : Catalog) (s : Store) (o : Std.TreeSet TypeKey) (k : TypeKey)
    (waiting : List Waiting) :
    accounts c (openKey c s o k waiting) = s.accounts c ++ (c.reports k ++
      frameAccounts c s (waiting.map Waiting.frame)) := by
  have harena : (s.miss.reportAll (c.reports k)).arena = s.arena := by simp
  rw [openKey_eq, accounts, frameAccounts, Store.accounts_congr c harena,
    Store.account_congr c harena]
  simp [Store.account, frameAccounts]

/-- Every move reports just what it adds to the accounts. -/
theorem exists_reports_move {c : Catalog} {m m' : Machine} (h : Move c m m') (hm : Sound c m) :
    ∃ new, m'.store.reports.toList = m.store.reports.toList ++ new ∧
      (m'.accounts c).Perm (m.accounts c ++ new) := by
  have hg := grows_move h (hm.unsettled _ List.mem_cons_self)
  cases h with
  | resume s o f parent link waiting hf =>
    have hfit : Fits c s f [] := hf ▸ hm.current
    have hown := hfit.accountOf_next hg
    have hne : (s.next f.key f.binding).binding ≠ .unknown .cycle := hfit.binding_ne_cycle
    have hbind := accounts_bind hg hm.waiting.2.1 hm.waiting.2.2
      (t := s.next f.key f.binding) (by simp [Store.get?]) (o.erase f.key)
    have hold := hm.consistent.accounts_push hg (t := s.next f.key f.binding) (by simp)
    -- the account of the frame becomes that of its type, and only the link of the parent is new
    refine ⟨link.reports parent.key (s.next f.key f.binding),
      Store.reports_reportMissing _ _ _ hne, ?_⟩
    rw [hbind, hold, hown, accounts, frameAccounts_cons, List.map_cons, frameAccounts_cons,
      List.perm_iff_count]
    intro r
    simp only [List.count_append]
    omega
  | cycle s o k d bound link links waiting ho =>
    have hfit : Fits c s ⟨k, d, bound, links⟩ (link :: links) := hm.current.with_pending
    have hbind : accounts c (breakCycle s o ⟨k, d, bound, links⟩ waiting link) = _ :=
      accounts_bind hg hfit hm.waiting (t := s.next link.key (.unknown .cycle))
        (by simp [Store.get?, breakCycle, Store.next]) o
    have hold := hm.consistent.accounts_push hg (t := s.next link.key (.unknown .cycle)) rfl
    have hown : (breakCycle s o ⟨k, d, bound, links⟩ waiting link).store.accountOf c
        (s.next link.key (.unknown .cycle)) = [] := if_pos rfl
    refine ⟨link.reports k (s.next link.key (.unknown .cycle)), Array.toList_push, ?_⟩
    rw [hbind, hold, hown, accounts, frameAccounts_cons, List.perm_iff_count]
    intro r
    simp only [List.count_append, List.count_nil]
    omega
  | reuse s o k d bound link links waiting t ho hfind =>
    obtain ⟨-, hget, hne⟩ := hm.consistent.settled_iff.1 hfind
    have hfit : Fits c s ⟨k, d, bound, links⟩ (link :: links) := hm.current.with_pending
    have hbind : accounts c (reuse s o ⟨k, d, bound, links⟩ waiting link t) = _ :=
      accounts_bind hg hfit hm.waiting (hg.get? hget) o
    have hold : (reuse s o ⟨k, d, bound, links⟩ waiting link t).store.accounts c = s.accounts c :=
      Store.accounts_congr c (arena_reportMissing _ _ _ _)
    refine ⟨link.reports k t, Store.reports_reportMissing _ _ _ hne, ?_⟩
    rw [hbind, hold, accounts, frameAccounts_cons, List.perm_iff_count]
    intro r
    simp only [List.count_append]
    omega
  | enter s o k d bound link links waiting ho hs =>
    refine ⟨c.reports link.key, by simp [openKey_eq], ?_⟩
    rw [accounts_openKey, accounts, List.map_cons, frameAccounts_cons, frameAccounts_cons,
      List.perm_iff_count]
    intro r
    simp only [List.count_append]
    omega

theorem accounted_move {c : Catalog} {m m' : Machine} (h : Move c m m') (hm : Sound c m)
    (ha : Accounted c m) : Accounted c m' := by
  obtain ⟨new, hreports, hdue⟩ := exists_reports_move h hm
  rw [Accounted, hreports]
  exact (ha.append_right new).trans hdue.symm

end Machine

namespace Store

/-- A look-up keeps the account. -/
theorem Accounted.resolve {c : Catalog} {s : Store} (ha : s.Accounted c) (h : s.Consistent c ∅)
    (k : TypeKey) : (s.resolve c k).2.Accounted c := by
  cases hs : s.find? k with
  | some t =>
    rw [resolve_of_settled c hs, Accounted, accounts_congr c (arena_hit s)]
    exact ha
  | none =>
    have hopen : Machine.Accounted c (Machine.openKey c s ∅ k []) := by
      have hreports : (Machine.openKey c s ∅ k []).store.reports.toList =
          s.reports.toList ++ c.reports k := by simp [Machine.openKey_eq]
      rw [Machine.Accounted, hreports, Machine.accounts_openKey]
      simpa [Machine.frameAccounts] using ha.append_right (c.reports k)
    obtain ⟨s', o, f, hf, hm, hdue, -, hres⟩ :=
      exists_last_frame Machine.accounted_move h hs hopen
    have hfit : Machine.Fits c s' f [] := hf ▸ hm.sound.current
    have hnone : s'.find? f.key = none := hm.sound.unsettled _ List.mem_cons_self
    have hg : s'.Grows ((s'.push (s'.next f.key f.binding)).settle (s'.next f.key f.binding)) :=
      (Grows.push s' _).trans (.settle hnone)
    rw [hres, Accounted, hm.sound.consistent.accounts_push hg rfl, hfit.accountOf_next hg]
    simpa [Machine.Accounted, Machine.accounts, Machine.frameAccounts] using hdue

theorem Reached.accounted {c : Catalog} {s : Store} (h : s.Reached c) : s.Accounted c := by
  induction h with
  | empty => exact .nil
  | resolve k hs ih => exact ih.resolve hs.consistent k

namespace Consistent

variable {c : Catalog} {o : Std.TreeSet TypeKey} {s : Store}

/-- The reports on a settled key are those in the account of its type. -/
theorem perm_account (h : s.Consistent c o) (ha : s.Accounted c) {k : TypeKey} {t : ResolvedType}
    (ht : s.find? k = some t) :
    (s.reports.toList.filter (·.subject = k)).Perm (s.account c k t.bases) := by
  obtain ⟨rfl, hget, hne⟩ := h.settled_iff.1 ht
  have hown : (s.accountOf c t).filter (·.subject = t.key) = s.account c t.key t.bases := by
    rw [accountOf, if_neg hne, List.filter_eq_self]
    intro r hr
    exact decide_eq_true (subject_of_mem_account hr)
  have hothers : ∀ u ∈ s.arena.toList, u.id ≠ t.id →
      (s.accountOf c u).filter (·.subject = t.key) = [] := by
    intro u hu hid
    rw [List.filter_eq_nil_iff]
    intro r hr hsubject
    rw [accountOf] at hr
    split at hr
    · cases hr
    · rename_i hcycle
      have hkey := (subject_of_mem_account hr).symm.trans (of_decide_eq_true hsubject)
      have hfind := h.find?_of_mem_arena hu hcycle
      rw [hkey, ht] at hfind
      cases hfind
      exact hid rfl
  have hperm := ha.filter (·.subject = t.key)
  rwa [accounts, List.filter_flatMap,
    flatMap_eq_of_mem h.nodup_ids (mem_arena_iff.2 ⟨_, hget⟩) hothers, hown] at hperm

/-- Reports are on settled keys, and are in the accounts of their types. -/
theorem mem_reports_iff (h : s.Consistent c o) (ha : s.Accounted c) {r : Report} :
    r ∈ s.reports.toList ↔
      ∃ t, s.find? r.subject = some t ∧ r ∈ s.account c r.subject t.bases := by
  constructor
  · intro hr
    obtain ⟨t, ht, hr⟩ := List.mem_flatMap.1 (ha.mem_iff.1 hr)
    rw [accountOf] at hr
    split at hr
    · cases hr
    · rename_i hne
      rw [subject_of_mem_account hr]
      exact ⟨t, h.find?_of_mem_arena ht hne, hr⟩
  · rintro ⟨t, ht, hr⟩
    exact (List.mem_filter.1 ((h.perm_account ha ht).mem_iff.2 hr)).1

end Consistent
end Store
end TypeCatalog
