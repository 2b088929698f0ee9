import TypeCatalog.Proofs.Stack

/-!
# Histories of a compilation

The queries that can be put to a compilation, and the compilation after any finite number of them.
Whatever the queries are, the store they leave comes from the empty store by look-ups of single
keys, so a property of stores that one look-up keeps holds in every history.
-/

namespace TypeCatalog

inductive Query where
  | resolve (k : TypeKey)
  | memberType (m : ResolvedMember)
  | allTypes
  | checkAll
  | get (id : TypeId)
  | directBases (t : ResolvedType)
  | closure (t : ResolvedType)
  | derives (t base : ResolvedType)
  | diagnostics
  | counts
  deriving DecidableEq, Repr

inductive Answer where
  | type (t : ResolvedType)
  | refused (fault : NameFault)
  | found (t : Option ResolvedType)
  | types (ts : List ResolvedType)
  | truth (b : Bool)
  | log (l : DiagnosticLog)
  | counts (n : LookupCount) (size : Nat)

namespace Store

/-- The stores of one catalog: look-ups lead to them from the empty store. -/
inductive Reached (c : Catalog) : Store → Prop where
  | empty : Reached c {}
  | resolve {s : Store} (k : TypeKey) (h : Reached c s) : Reached c (s.resolve c k).2

theorem resolveAll_nil (c : Catalog) (s : Store) : s.resolveAll c [] = (#[], s) := rfl

theorem extend_eq (c : Catalog) (found : Array ResolvedType) (s : Store) (k : TypeKey) :
    Resolver.extend c (found, ⟨s, ∅⟩) k =
      (found.push (s.resolve c k).1, ⟨(s.resolve c k).2, ∅⟩) := by
  rw [Resolver.extend, Resolver.resolve_eq]

/-- What was found before stands in front of what the other keys yield. -/
theorem foldl_extend (c : Catalog) (found : Array ResolvedType) (s : Store) (ks : List TypeKey) :
    ks.foldl (Resolver.extend c) (found, ⟨s, ∅⟩) =
      (found ++ (ks.foldl (Resolver.extend c) (#[], ⟨s, ∅⟩)).1,
        (ks.foldl (Resolver.extend c) (#[], ⟨s, ∅⟩)).2) := by
  induction ks generalizing found s with
  | nil => simp
  | cons k ks ih =>
    simp only [List.foldl_cons, extend_eq]
    rw [ih (found.push (s.resolve c k).1), ih (#[].push (s.resolve c k).1)]
    simp

theorem resolveAll_cons (c : Catalog) (s : Store) (k : TypeKey) (ks : List TypeKey) :
    s.resolveAll c (k :: ks) = (#[(s.resolve c k).1] ++ ((s.resolve c k).2.resolveAll c ks).1,
      ((s.resolve c k).2.resolveAll c ks).2) := by
  rw [resolveAll, List.foldl_cons, extend_eq, foldl_extend]
  rfl

theorem Reached.resolveAll {c : Catalog} {s : Store} (h : Reached c s) (ks : List TypeKey) :
    Reached c (s.resolveAll c ks).2 := by
  induction ks generalizing s with
  | nil => exact h
  | cons k ks ih =>
    rw [resolveAll_cons]
    exact ih (h.resolve k)

end Store

namespace Compilation

def ask (c : Compilation) : Query → Answer × Compilation
  | .resolve k =>
    match c.resolve k with
    | .ok (t, c) => (.type t, c)
    | .error fault => (.refused fault, c)
  | .memberType m => (.found (c.memberType m).1, (c.memberType m).2)
  | .allTypes => (.types c.allTypes.1, c.allTypes.2)
  | .checkAll => (.log c.checkAll.1, c.checkAll.2)
  | .get id => (.found (c.get? id), c)
  | .directBases t => (.types (c.store.directBases t), c)
  | .closure t => (.types (c.store.closure t), c)
  | .derives t base => (.truth (c.store.derives t base), c)
  | .diagnostics => (.log c.diagnostics, c)
  | .counts => (.counts c.store.count c.size, c)

/-- The compilation after a sequence of queries. -/
def after (c : Compilation) (qs : List Query) : Compilation :=
  qs.foldl (fun c q => (c.ask q).2) c

theorem after_append (c : Compilation) (qs qs' : List Query) :
    c.after (qs ++ qs') = (c.after qs).after qs' :=
  List.foldl_append

/-- The keys that a query looks up itself, in their order. A refused query looks up none. -/
def lookedUp (c : Compilation) : Query → List TypeKey
  | .resolve k => if k.fault? = none then [k] else []
  | .memberType m => m.sited.member.returnType.toList
  | .allTypes => c.catalog.visibleKeys
  | .checkAll => c.catalog.visibleKeys
  | _ => []

/-- All a query does to a compilation is to look up its keys one after the other. -/
theorem ask_eq (c : Compilation) (q : Query) :
    (c.ask q).2 = { c with store := (c.store.resolveAll c.catalog (c.lookedUp q)).2 } := by
  cases q with
  | resolve k =>
    cases hk : k.fault? with
    | some fault => simp [ask, lookedUp, hk, resolve_of_fault hk, Store.resolveAll_nil]
    | none =>
      simp [ask, lookedUp, hk, resolve_of_sound hk, lookup, Store.resolveAll_cons,
        Store.resolveAll_nil]
  | memberType m =>
    cases hm : m.sited.member.returnType with
    | none => simp [ask, lookedUp, memberType, hm, Store.resolveAll_nil]
    | some k =>
      simp [ask, lookedUp, memberType, hm, lookup, Store.resolveAll_cons, Store.resolveAll_nil]
  | _ => rfl

@[simp] theorem snapshot_ask (c : Compilation) (q : Query) :
    (c.ask q).2.snapshot = c.snapshot := by
  rw [ask_eq]

@[simp] theorem catalog_ask (c : Compilation) (q : Query) : (c.ask q).2.catalog = c.catalog := by
  rw [ask_eq]

@[simp] theorem snapshot_after (c : Compilation) (qs : List Query) :
    (c.after qs).snapshot = c.snapshot := by
  induction qs generalizing c with
  | nil => rfl
  | cons q qs ih => exact (ih (c.ask q).2).trans (snapshot_ask c q)

theorem catalog_after (s : Snapshot) (qs : List Query) :
    ((create s).after qs).catalog = .ofProject s.project := by
  rw [catalog_eq, snapshot_after, snapshot_create]

theorem reached_ask {c : Compilation} (h : c.store.Reached c.catalog) (q : Query) :
    (c.ask q).2.store.Reached (c.ask q).2.catalog := by
  rw [ask_eq]
  exact h.resolveAll _

/-- Every history leaves a store that look-ups lead to. -/
theorem reached_after_own (s : Snapshot) (qs : List Query) :
    ((create s).after qs).store.Reached ((create s).after qs).catalog := by
  have h : ∀ c : Compilation, c.store.Reached c.catalog →
      (c.after qs).store.Reached (c.after qs).catalog := by
    induction qs with
    | nil => exact fun c hc => hc
    | cons q qs ih => exact fun c hc => ih (c.ask q).2 (reached_ask hc q)
  exact h (create s) .empty

theorem reached_after (s : Snapshot) (qs : List Query) :
    ((create s).after qs).store.Reached (.ofProject s.project) :=
  catalog_after s qs ▸ reached_after_own s qs

end Compilation
end TypeCatalog
