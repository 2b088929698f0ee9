import TypeCatalog.Proofs.Lookup

/-!
# The grammar of queries

A query names a type by a simple name and a namespace path. The check of a key accepts exactly the
keys of the grammar: a name that is not empty and has no dot, and a path that is empty or made of
segments joined with dots, none of them empty or with a dot of its own. Such a path is one in which
each dot stands between two characters that are no dots. Of a key with several faults the first one
is reported, in the order in which the grammar is read, and a query that is refused changes nothing.
-/

namespace TypeCatalog

namespace Dotted

/-- The empty path, or segments joined with dots. -/
def IsNamespacePath (path : String) : Prop :=
  path = "" ∨ ∃ texts, texts ≠ [] ∧ (∀ t ∈ texts, t ≠ "" ∧ '.' ∉ t.toList) ∧ path = join texts

/-- A dot at the start or at the end, or two dots next to each other. -/
def HasStrayDot (text : String) : Prop :=
  ['.'] <+: text.toList ∨ ['.'] <:+ text.toList ∨ ['.', '.'] <:+: text.toList

section Pieces

variable {c : Char} {l piece : List Char} {pieces : List (List Char)}

theorem splitOn_cons_self (c : Char) (l : List Char) : (c :: l).splitOn c = [] :: l.splitOn c := by
  simp [List.splitOn_cons_eq_if_modifyHead]

theorem splitOn_cons_of_ne {d : Char} (hd : d ≠ c) (h : l.splitOn c = piece :: pieces) :
    (d :: l).splitOn c = (d :: piece) :: pieces := by
  simp [List.splitOn_cons_eq_if_modifyHead, hd, h]

/-- The first piece is empty if there is nothing before the first separator. -/
theorem first_splitOn_eq_nil_iff (h : l.splitOn c = piece :: pieces) :
    piece = [] ↔ l = [] ∨ [c] <+: l := by
  cases l with
  | nil => simp_all
  | cons d l =>
    by_cases hd : d = c
    · subst hd
      rw [splitOn_cons_self] at h
      simp [(List.cons.inj h).1.symm]
    · obtain ⟨first, rest, hl⟩ := List.exists_cons_of_ne_nil (List.splitOn_ne_nil c l)
      rw [splitOn_cons_of_ne hd hl] at h
      simp [(List.cons.inj h).1.symm, Ne.symm hd]

/-- A later piece is empty if a separator has nothing behind it or another separator. -/
theorem nil_mem_rest_splitOn_iff (h : l.splitOn c = piece :: pieces) :
    [] ∈ pieces ↔ [c] <:+ l ∨ [c, c] <:+: l := by
  induction l generalizing piece pieces with
  | nil => simp_all
  | cons d l ih =>
    obtain ⟨first, rest, hl⟩ := List.exists_cons_of_ne_nil (List.splitOn_ne_nil c l)
    by_cases hd : d = c
    · subst hd
      rw [splitOn_cons_self, hl] at h
      rw [← (List.cons.inj h).2, List.mem_cons, eq_comm, first_splitOn_eq_nil_iff hl, ih hl,
        List.suffix_cons_iff, List.infix_cons_iff, List.cons_prefix_cons]
      simp only [List.cons.injEq, List.nil_eq, true_and]
      tauto
    · rw [splitOn_cons_of_ne hd hl] at h
      rw [← (List.cons.inj h).2, ih hl, List.suffix_cons_iff, List.infix_cons_iff]
      simp [Ne.symm hd]

end Pieces

theorem isWellFormedNamespace_iff_isNamespacePath (path : String) :
    isWellFormedNamespace path = true ↔ IsNamespacePath path := by
  constructor
  · intro h
    by_cases hpath : path = ""
    · exact .inl hpath
    · have hempty := (isWellFormedNamespace_of_ne hpath).1 h
      exact .inr ⟨segments path, segments_ne_nil path,
        fun t ht => ⟨fun he => hempty (he ▸ ht), dot_not_mem_of_mem_segments ht⟩,
        (join_segments path).symm⟩
  · rintro (rfl | ⟨texts, -, htexts, rfl⟩)
    · rfl
    · exact (isWellFormedNamespace_join_iff fun t ht => (htexts t ht).2).2
        (.inr fun hempty => (htexts "" hempty).1 rfl)

theorem empty_mem_segments_iff (text : String) :
    "" ∈ segments text ↔ text = "" ∨ HasStrayDot text := by
  obtain ⟨first, rest, h⟩ := List.exists_cons_of_ne_nil (List.splitOn_ne_nil '.' text.toList)
  have hmem : "" ∈ segments text ↔ [] ∈ text.toList.splitOn '.' := by
    simp [segments]
  rw [hmem, h, List.mem_cons, eq_comm, first_splitOn_eq_nil_iff h, nil_mem_rest_splitOn_iff h,
    HasStrayDot, or_assoc]
  simp

theorem isWellFormedNamespace_iff_not_hasStrayDot (path : String) :
    isWellFormedNamespace path = true ↔ ¬ HasStrayDot path := by
  by_cases hpath : path = ""
  · subst hpath
    simp [HasStrayDot]
  · rw [isWellFormedNamespace_of_ne hpath, empty_mem_segments_iff, or_iff_right hpath]

end Dotted

namespace TypeKey

/-- The keys that a query can name. -/
structure WellFormed (k : TypeKey) : Prop where
  name_ne : k.name ≠ ""
  simple : '.' ∉ k.name.toList
  path : Dotted.IsNamespacePath k.ns

/-- A fault is reported if the key has no fault that is looked for before it. -/
inductive Shows (k : TypeKey) : NameFault → Prop where
  | emptyName (hname : k.name = "") : Shows k .emptyName
  | qualifiedName (hname : k.name ≠ "") (hdot : '.' ∈ k.name.toList) :
    Shows k (.qualifiedName k.name)
  | emptySegment (hname : k.name ≠ "") (hdot : '.' ∉ k.name.toList)
    (hpath : ¬ Dotted.IsNamespacePath k.ns) : Shows k (.emptySegment k.ns)

theorem fault?_eq_none_iff_wellFormed (k : TypeKey) : k.fault? = none ↔ k.WellFormed := by
  rw [fault?_eq_none_iff, Dotted.isWellFormedNamespace_iff_isNamespacePath]
  exact ⟨fun ⟨hname, hdot, hpath⟩ => ⟨hname, hdot, hpath⟩,
    fun h => ⟨h.name_ne, h.simple, h.path⟩⟩

theorem fault?_eq_some_iff_shows (k : TypeKey) (fault : NameFault) :
    k.fault? = some fault ↔ k.Shows fault := by
  have hpath := Dotted.isWellFormedNamespace_iff_isNamespacePath k.ns
  constructor
  · intro h
    unfold fault? at h
    split at h
    · rename_i hname
      exact Option.some.inj h ▸ .emptyName hname
    · rename_i hname
      split at h
      · rename_i hdot
        exact Option.some.inj h ▸ .qualifiedName hname hdot
      · rename_i hdot
        split at h
        · cases h
        · rename_i hns
          exact Option.some.inj h ▸ .emptySegment hname hdot fun hp => hns (hpath.2 hp)
  · intro h
    cases h with
    | emptyName hname => simp [fault?, hname]
    | qualifiedName hname hdot => simp [fault?, hname, hdot]
    | emptySegment hname hdot hns => simp [fault?, hname, hdot, mt hpath.1 hns]

end TypeKey

namespace Compilation

variable {c : Compilation} {k : TypeKey} {fault : NameFault}

theorem accepts_iff : (∃ t c', c.resolve k = .ok (t, c')) ↔ k.fault? = none := by
  cases hk : k.fault? with
  | none => exact iff_of_true ⟨_, _, resolve_of_sound hk⟩ rfl
  | some fault => simp [resolve_of_fault hk]

/-- A query that is refused leaves the compilation as it is. -/
theorem ask_of_resolve_eq_error (h : c.resolve k = .error fault) :
    c.ask (.resolve k) = (.refused fault, c) := by
  rw [ask, h]

end Compilation

/-- In every history a query is answered exactly for the keys of the grammar, and any other is
refused with the first fault of its key and leaves the compilation as it is. The paths of the
grammar are the texts without a stray dot; cutting and joining them are inverse to each other, but
for the list of one empty text. -/
theorem queries_follow_grammar (s : Snapshot) (qs : List Query) :
    let c := (Compilation.create s).after qs
    (∀ k, (∃ t c', c.resolve k = .ok (t, c')) ↔ k.WellFormed) ∧
    (∀ k fault, c.resolve k = .error fault ↔ k.Shows fault) ∧
    (∀ k fault, c.resolve k = .error fault → c.ask (.resolve k) = (.refused fault, c)) ∧
    (∀ path, Dotted.IsNamespacePath path ↔ ¬ Dotted.HasStrayDot path) ∧
    (∀ texts, (∀ t ∈ texts, '.' ∉ t.toList) → texts ≠ [""] →
      Dotted.namespaceSegments (Dotted.join texts) = texts) ∧
    ∀ path, Dotted.join (Dotted.namespaceSegments path) = path := by
  intro c
  refine ⟨fun k => ?_, fun k fault => ?_, fun k fault => Compilation.ask_of_resolve_eq_error,
    fun path => ?_, fun texts => Dotted.namespaceSegments_join, Dotted.join_namespaceSegments⟩
  · rw [Compilation.accepts_iff, TypeKey.fault?_eq_none_iff_wellFormed]
  · rw [Compilation.resolve_eq_error_iff, TypeKey.fault?_eq_some_iff_shows]
  · rw [← Dotted.isWellFormedNamespace_iff_isNamespacePath,
      Dotted.isWellFormedNamespace_iff_not_hasStrayDot]

/-- Keys with several faults, after a query for one that has none. -/
theorem queries_follow_grammar_faults :
    let c := (Compilation.create .initial).after [.resolve ⟨"N.M", "A", 1⟩]
    (∃ t c', c.resolve ⟨"N.M", "A", 1⟩ = .ok (t, c')) ∧
    c.resolve ⟨"N..M", "", 0⟩ = .error .emptyName ∧
    c.resolve ⟨".N", "A.B", 0⟩ = .error (.qualifiedName "A.B") ∧
    c.resolve ⟨"N.", "A", 0⟩ = .error (.emptySegment "N.") ∧
    c.ask (.resolve ⟨"N.", "A", 0⟩) = (.refused (.emptySegment "N."), c) ∧
    Dotted.namespaceSegments (Dotted.join ["N", "", "M"]) = ["N", "", "M"] := by
  intro c
  obtain ⟨haccepted, hshows, hask, hpath, hjoin, -⟩ :=
    queries_follow_grammar .initial [.resolve ⟨"N.M", "A", 1⟩]
  have hstray : Dotted.HasStrayDot "N." := .inr (.inl ⟨['N'], by decide⟩)
  have hrefused : c.resolve ⟨"N.", "A", 0⟩ = .error (.emptySegment "N.") :=
    (hshows _ _).2 (.emptySegment (by decide) (by decide) fun h => (hpath "N.").1 h hstray)
  refine ⟨(haccepted ⟨"N.M", "A", 1⟩).2 ⟨by decide, by decide, ?_⟩, ?_, ?_, hrefused,
    hask _ _ hrefused, hjoin _ (by decide) (by decide)⟩
  · exact .inr ⟨["N", "M"], by decide, by decide, by decide⟩
  · exact (hshows _ _).2 (.emptyName rfl)
  · exact (hshows _ _).2 (.qualifiedName (by decide) (by decide))

end TypeCatalog
