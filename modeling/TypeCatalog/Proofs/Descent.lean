import TypeCatalog.Proofs.Stack

/-!
# Look-up by plain recursion

`descend` finds the type of a key by calling itself for each base link, with the list of the keys
whose search has begun and not ended. It writes down by itself what each step does to the store, and
nothing here has a stack of frames. A resolver, which has one, finds the same type and leaves the
same store, for every catalog and every store to begin with.
-/

namespace TypeCatalog

namespace Store

open Machine (debt debt_add_le)

/-- The report on a link that names a type which nothing declares. -/
def missing (subject : TypeKey) (link : BaseLink) (t : ResolvedType) : List Report :=
  if link.explicit ∧ t.binding = .unknown .unresolved then
    [⟨link.file, subject, .unresolvedBase link.key⟩]
  else []

mutual

/-- The type of a key. A key that is not settled is searched for below all keys in `opened`. -/
def descend (c : Catalog) (s : Store) (opened : List TypeKey) (k : TypeKey) (_h : k ∉ opened) :
    ResolvedType × Store :=
  match s.settled[k]? with
  | some t => (t, { s with count := { s.count with hits := s.count.hits + 1 } })
  | none =>
    let s := { s with
      count := { s.count with misses := s.count.misses + 1 }
      reports := s.reports ++ c.reports k }
    let (bases, s) := follow c s (k :: opened) k (c.links k)
    let t := ⟨s.arena.size, k, c.binding k bases⟩
    (t, { s with arena := s.arena.push t, settled := s.settled.insert k t })
termination_by debt c (opened.contains ·) + 1
decreasing_by
  have hd : debt c ((k :: opened).contains ·) + 2 * (c.links k).length ≤
      debt c (opened.contains ·) := debt_add_le c (by simp_all) (by simpa using _h) (by simp)
  omega

/-- The types of the links of `subject`, from left to right. -/
def follow (c : Catalog) (s : Store) (opened : List TypeKey) (subject : TypeKey) :
    List BaseLink → List TypeId × Store
  | [] => ([], s)
  | link :: links =>
    if h : link.key ∈ opened then
      let t := ⟨s.arena.size, link.key, .unknown .cycle⟩
      let s := { s with
        arena := s.arena.push t
        reports := s.reports.push ⟨link.file, subject, .circularBase link.key⟩ }
      let (bases, s) := follow c s opened subject links
      (t.id :: bases, s)
    else
      let (t, s) := descend c s opened link.key h
      let s := { s with reports := s.reports ++ missing subject link t }
      let (bases, s) := follow c s opened subject links
      (t.id :: bases, s)
termination_by links => debt c (opened.contains ·) + 2 * links.length
decreasing_by all_goals simp only [List.length_cons]; omega

end

theorem reportMissing_eq (s : Store) (subject : TypeKey) (link : BaseLink) (t : ResolvedType) :
    s.reportMissing subject link t = { s with reports := s.reports ++ missing subject link t } := by
  have hreason : t.unknownReason? = some .unresolved ↔ t.binding = .unknown .unresolved := by
    unfold ResolvedType.unknownReason?
    cases t.binding <;> simp
  simp only [reportMissing, missing, hreason, Bool.and_eq_true, decide_eq_true_eq]
  split
  · simp [report]
  · simp

/-- The store in which the search for the links of a key begins. -/
theorem miss_reportAll_eq (c : Catalog) (s : Store) (k : TypeKey) :
    s.miss.reportAll (c.reports k) = { s with
      count := { s.count with misses := s.count.misses + 1 }
      reports := s.reports ++ c.reports k } :=
  reportAll_eq _ _

end Store

namespace Machine

open Store (descend follow)

/-- A frame comes from its first link to the next with the type that plain recursion finds for the
key of that link, and from its first link to the end with all types that plain recursion finds. -/
theorem run_simulates (c : Catalog) :
    (∀ s opened k (h : k ∉ opened), ∀ o subject d bound link links waiting,
      Tracks o opened → link.key = k →
      ∃ o', Tracks o' opened ∧ run c ⟨s, o, ⟨subject, d, bound, link :: links⟩, waiting⟩ =
        run c ⟨(descend c s opened k h).2.reportMissing subject link (descend c s opened k h).1,
          o', ⟨subject, d, bound.push (descend c s opened k h).1.id, links⟩, waiting⟩) ∧
    (∀ s opened subject links, ∀ o d bound waiting, Tracks o opened →
      ∃ o', Tracks o' opened ∧ run c ⟨s, o, ⟨subject, d, bound, links⟩, waiting⟩ =
        run c ⟨(follow c s opened subject links).2, o',
          ⟨subject, d, bound ++ (follow c s opened subject links).1, []⟩, waiting⟩) := by
  -- the frames below take part in no move, so that the induction holds under any stack of them
  refine Store.descend.mutual_induct c _ _ ?settled ?fresh ?nil ?cycle ?link
  case settled =>
    rintro s opened k h t ht o subject d bound link links waiting hto rfl
    have ho : link.key ∉ o := fun hm => h ((hto _).1 hm)
    refine ⟨o, hto, ?_⟩
    rw [run_of_move (.reuse s o subject d bound link links waiting t ho ht), descend, ht]
    rfl
  case fresh =>
    rintro s opened k h hs s₁ bases s₂ hfollow ih o subject d bound link links waiting hto rfl
    have ho : link.key ∉ o := fun hm => h ((hto _).1 hm)
    obtain ⟨o', hto', hrun⟩ := ih (o.insert link.key) ((c.outline? link.key).map Outline.definition)
      #[] (⟨⟨subject, d, bound, links⟩, link⟩ :: waiting) (hto.insert link.key)
    refine ⟨o'.erase link.key, hto'.erase h, ?_⟩
    rw [run_of_move (.enter s o subject d bound link links waiting ho hs), openKey_eq,
      Store.miss_reportAll_eq, hrun, run_of_move (.resume _ _ _ _ _ _ rfl), descend, hs]
    simp only [s₁] at hfollow
    simp [hfollow, binding_eq, Frame.bind, s₁, Store.next, Store.push, Store.settle]
  case nil =>
    intro s opened subject o d bound waiting hto
    exact ⟨o, hto, by simp [follow]⟩
  case cycle =>
    intro s opened subject link links hmem t s₁ bases s₂ hfollow ih o d bound waiting hto
    have ho : link.key ∈ o := (hto _).2 hmem
    obtain ⟨o', hto', hrun⟩ := ih o d (bound.push t.id) waiting hto
    refine ⟨o', hto', ?_⟩
    rw [run_of_move (.cycle s o subject d bound link links waiting ho), follow, dif_pos hmem]
    exact hrun.trans (by simp [s₁, t, hfollow])
  case link =>
    intro s opened subject link links h t s₁ ht s₂ bases s₃ hfollow ihd ihf o d bound waiting hto
    obtain ⟨o₁, hto₁, hrun₁⟩ := ihd o subject d bound link links waiting hto rfl
    obtain ⟨o₂, hto₂, hrun₂⟩ := ihf o₁ d (bound.push t.id) waiting hto₁
    refine ⟨o₂, hto₂, ?_⟩
    rw [ht, Store.reportMissing_eq] at hrun₁
    rw [hrun₁, hrun₂, follow, dif_neg h, ht]
    simp [s₂, hfollow]

end Machine

/-- A resolver answers a key as plain recursion does: with the same type, and the store it leaves
has the same arena, the same settled keys, the same reports and the same counts. -/
theorem resolve_eq_descend (c : Catalog) (s : Store) (k : TypeKey) :
    Resolver.resolve c ⟨s, ∅⟩ k =
      ((s.descend c [] k List.not_mem_nil).1, ⟨(s.descend c [] k List.not_mem_nil).2, ∅⟩) := by
  cases hs : s.settled[k]? with
  | some t =>
    rw [Resolver.resolve_of_settled c (r := ⟨s, ∅⟩) hs, Store.descend, hs]
    rfl
  | none =>
    have ho := Resolver.opened_resolve c s k
    rw [Resolver.resolve_of_unsettled c (r := ⟨s, ∅⟩) hs, Machine.openKey_eq,
      Store.miss_reportAll_eq] at ho ⊢
    obtain ⟨o, -, hrun⟩ := (Machine.run_simulates c).2 { s with
        count := { s.count with misses := s.count.misses + 1 }
        reports := s.reports ++ c.reports k }
      [k] k (c.links k) (Std.TreeSet.insert ∅ k) ((c.outline? k).map Outline.definition) #[] []
      (tracks_empty.insert k)
    rw [hrun, Machine.run_of_last rfl] at ho ⊢
    rw [Store.descend, hs]
    simpa [Machine.binding_eq, Store.next, Store.push, Store.settle] using ho

end TypeCatalog
