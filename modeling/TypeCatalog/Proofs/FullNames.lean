import TypeCatalog.Proofs.Lookup

/-!
# Full names as queries

A full name is cut at its last dot into a namespace and a name, and it is the key made of the two
that is checked. An empty segment of the full name is a fault of the key with one exception: the
empty segment before a dot that begins the full name and is the only one becomes the global
namespace, and the key answers for the name without the dot.
-/

namespace TypeCatalog

namespace TypeKey

variable {text last : String} {init : List String} (h : Dotted.segments text = init ++ [last])
  (arity : Nat)
include h

theorem ofFullName_eq : ofFullName text arity = ⟨Dotted.join init, last, arity⟩ := by
  rw [ofFullName, Dotted.splitLast_eq h]

theorem dot_not_mem_of_segments_eq : '.' ∉ last.toList ∧ ∀ t ∈ init, '.' ∉ t.toList := by
  have hfree : ∀ t ∈ init ++ [last], '.' ∉ t.toList :=
    fun t ht => Dotted.dot_not_mem_of_mem_segments (h ▸ ht)
  exact ⟨hfree last (by simp), fun t ht => hfree t (List.mem_append_left _ ht)⟩

theorem fault?_ofFullName_eq_none_iff :
    (ofFullName text arity).fault? = none ↔ last ≠ "" ∧ (init = [""] ∨ "" ∉ init) := by
  obtain ⟨hlast, hinit⟩ := dot_not_mem_of_segments_eq h
  rw [ofFullName_eq h, fault?_eq_none_iff, Dotted.isWellFormedNamespace_join_iff hinit,
    and_iff_right hlast]

/-- The name of the key is the full name that it was made of, but for a lost dot. -/
theorem fullName_ofFullName :
    (ofFullName text arity).fullName = if init = [""] then last else text := by
  have hjoin := Dotted.join_eq_empty_iff (dot_not_mem_of_segments_eq h).2
  have htext : text = Dotted.join (init ++ [last]) := by rw [← h, Dotted.join_segments]
  rw [ofFullName_eq h, fullName]
  by_cases hnil : init = []
  · subst hnil
    exact htext.symm
  · by_cases hdot : init = [""]
    · rw [if_pos (hjoin.2 (.inr hdot)), if_pos hdot]
    · have hne : Dotted.join init ≠ "" := mt hjoin.1 (by simp [hnil, hdot])
      rw [if_neg hne, if_neg hdot, htext, Dotted.join_concat hnil]

end TypeKey

theorem Compilation.refuses_iff {c : Compilation} {k : TypeKey} :
    (∃ fault, c.resolve k = .error fault) ↔ k.fault? ≠ none := by
  simp only [resolve_eq_error_iff, Option.ne_none_iff_exists']

theorem Compilation.key_of_resolve {c c' : Compilation} (h : c.store.Reached c.catalog)
    {k : TypeKey} {t : ResolvedType} (ht : c.resolve k = .ok (t, c')) : t.key = k := by
  cases hk : k.fault? with
  | some fault => simp [resolve_of_fault hk] at ht
  | none =>
    rw [resolve_of_sound hk, Except.ok.injEq] at ht
    exact (congrArg (·.1.key) ht).symm.trans (key_lookup h k)

/-- In every history a full name is refused if and only if one of its segments is empty and it is
not a dot followed by a name without a dot. A full name that is not refused is answered with a type
of this full name, or in that one case of the global name after the dot. -/
theorem full_name_refused_iff (s : Snapshot) (qs : List Query) (text : String) (arity : Nat) :
    let c := (Compilation.create s).after qs
    let k := TypeKey.ofFullName text arity
    ((∃ fault, c.resolve k = .error fault) ↔ "" ∈ Dotted.segments text ∧
      ∀ name, name ≠ "" → Dotted.segments text ≠ ["", name]) ∧
    ∀ t c', c.resolve k = .ok (t, c') → t.key.arity = arity ∧
      ("" ∉ Dotted.segments text → t.key.fullName = text) ∧
      ∀ name, Dotted.segments text = ["", name] → t.key.fullName = name := by
  intro c k
  obtain ⟨init, last, h⟩ := Dotted.exists_segments_eq_concat text
  have hdot : ∀ name, init ++ [last] = ["", name] ↔ init = [""] ∧ last = name :=
    fun name => by rw [← List.append_singleton_inj, List.singleton_append]
  constructor
  · rw [Compilation.refuses_iff, ne_eq, TypeKey.fault?_ofFullName_eq_none_iff h, h]
    simp only [ne_eq, hdot, List.mem_append, List.mem_singleton]
    grind
  · intro t c' ht
    have hk : t.key = k := Compilation.key_of_resolve (Compilation.reached_after_own s qs) ht
    have hname : t.key.fullName = if init = [""] then last else text := by
      rw [hk, TypeKey.fullName_ofFullName h]
    refine ⟨by rw [hk, TypeKey.ofFullName_arity], fun hempty => ?_, fun name hsegments => ?_⟩
    · have hinit : init ≠ [""] := by
        rintro rfl
        simp [h] at hempty
      rw [hname, if_neg hinit]
    · obtain ⟨hinit, rfl⟩ := (hdot name).1 (h ▸ hsegments)
      rw [hname, if_pos hinit]

/-- Two classes of the same name, one of them in a namespace. -/
def Snapshot.namesakes : Snapshot :=
  initial.updateAll [.addFile ⟨"a.cs", [⟨"", "A", .classType, [], [], [], false⟩,
    ⟨"N", "A", .classType, [], [], [], false⟩]⟩]

theorem full_name_refused_iff_namesakes :
    let c := (Compilation.create .namesakes).after [.resolve ⟨"", "A", 0⟩]
    (∃ fault, c.resolve (.ofFullName "N..A" 0) = .error fault) ∧
    (∃ t c', c.resolve (.ofFullName "N.A" 0) = .ok (t, c') ∧ "" ∉ Dotted.segments "N.A" ∧
      t.key.fullName = "N.A") ∧
    ∃ t c', c.resolve (.ofFullName ".A" 0) = .ok (t, c') ∧ Dotted.segments ".A" = ["", "A"] ∧
      t.key.fullName = "A" := by
  intro c
  have hspec := fun text => full_name_refused_iff .namesakes [.resolve ⟨"", "A", 0⟩] text 0
  have hqualified : c.resolve (.ofFullName "N.A" 0) = .ok (c.lookup ⟨"N", "A", 0⟩) := rfl
  have hdot : c.resolve (.ofFullName ".A" 0) = .ok (c.lookup ⟨"", "A", 0⟩) := rfl
  have hsegments : Dotted.segments "N..A" = ["N", "", "A"] := by decide
  refine ⟨(hspec "N..A").1.2 ⟨by decide, by simp [hsegments]⟩, ?_, ?_⟩
  · exact ⟨_, _, hqualified, by decide, ((hspec "N.A").2 _ _ hqualified).2.1 (by decide)⟩
  · exact ⟨_, _, hdot, by decide, ((hspec ".A").2 _ _ hdot).2.2 "A" (by decide)⟩

/-- A dot before a name is lost: its full name has an empty segment and is not refused, and the
answer is the global class. -/
theorem leading_dot_is_lost :
    let c := (Compilation.create .namesakes).after []
    ¬ ((∃ fault, c.resolve (.ofFullName ".A" 0) = .error fault) ↔ "" ∈ Dotted.segments ".A") ∧
    ∃ t c', c.resolve (.ofFullName ".A" 0) = .ok (t, c') ∧ t.key.fullName ≠ ".A" ∧
      t.origin = .source ["a.cs"] := by
  intro c
  have hdot : c.resolve (.ofFullName ".A" 0) = .ok (c.lookup ⟨"", "A", 0⟩) := rfl
  refine ⟨fun hiff => ?_, _, _, hdot, by decide +kernel, by decide +kernel⟩
  obtain ⟨fault, hfault⟩ := hiff.2 (by decide)
  rw [hdot] at hfault
  cases hfault

end TypeCatalog
