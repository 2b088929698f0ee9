import Std.Data.String.ToNat
import TypeCatalog.Inspection
import TypeCatalog.Proofs.FullNames

/-!
# What printed names tell

The full name of a key is its namespace, a dot and its name. Since the name has no dot, the last dot
of the full name tells the two apart, and the key is read back from its full name and its arity. The
reflection name has the arity behind the name, after a backtick, unless it is zero. It is the full
name of a key whose name ends so, and a name may end so by itself: two keys without fault have one
reflection name exactly if they are equal or one of them, without type parameters, is named so.
-/

namespace TypeCatalog

/-- A separator that is not behind itself tells what is before it and what is behind it. -/
theorem append_cons_inj_of_not_mem {α : Type} {c : α} {front front' back back' : List α}
    (h : c ∉ back) (h' : c ∉ back') :
    front ++ c :: back = front' ++ c :: back' ↔ front = front' ∧ back = back' := by
  constructor
  · intro heq
    -- were one front part longer, a separator would be behind the other separator
    rcases List.append_eq_append_iff.1 heq with ⟨more, hfront, hback⟩ | ⟨more, hfront, hback⟩ <;>
      cases more with
      | nil => simp_all
      | cons d more =>
        rw [List.cons_append, List.cons.injEq] at hback
        simp [hback.2] at h h'
  · rintro ⟨rfl, rfl⟩
    rfl

theorem isDigit_of_mem_toString {n : Nat} {c : Char} (h : c ∈ (toString n).toList) :
    c.isDigit = true := by
  rw [Nat.toString_eq_repr, Nat.toList_repr] at h
  exact Nat.isDigit_of_mem_toDigits (by decide) (by decide) h

theorem not_mem_toString {c : Char} (hc : c.isDigit = false) (n : Nat) :
    c ∉ (toString n).toList := by
  intro h
  rw [isDigit_of_mem_toString h] at hc
  cases hc

theorem toString_inj {m n : Nat} : toString m = toString n ↔ m = n := by
  rw [Nat.toString_eq_repr, Nat.toString_eq_repr]
  exact Nat.repr_inj

/-- A number is told from what stands before it by a mark that is no digit. -/
theorem append_number_inj {mark : Char} (hmark : mark.isDigit = false) {front front' : String}
    {m n : Nat} : front ++ String.singleton mark ++ toString m =
      front' ++ String.singleton mark ++ toString n ↔ front = front' ∧ m = n := by
  rw [← toString_inj, ← String.toList_inj, ← String.toList_inj, ← String.toList_inj,
    ← append_cons_inj_of_not_mem (not_mem_toString hmark m) (not_mem_toString hmark n)]
  simp

namespace Dotted

theorem dot_not_mem_splitLast (text : String) : '.' ∉ (splitLast text).2.toList := by
  obtain ⟨init, last, h⟩ := exists_segments_eq_concat text
  rw [splitLast_eq h]
  exact dot_not_mem_of_mem_segments (h ▸ List.mem_append_right _ (List.mem_singleton_self last))

theorem splitLast_of_dot_not_mem {text : String} (h : '.' ∉ text.toList) :
    splitLast text = ("", text) :=
  splitLast_eq ((segments_of_dot_not_mem h).trans (List.nil_append _).symm)

theorem splitLast_append {last : String} (h : '.' ∉ last.toList) (front : String) :
    splitLast (front ++ "." ++ last) = (front, last) := by
  have hjoin : join (segments front ++ [last]) = front ++ "." ++ last := by
    rw [join_concat (segments_ne_nil front), join_segments]
  have hsegments : segments (front ++ "." ++ last) = segments front ++ [last] := by
    rw [← hjoin]
    refine segments_join (fun t ht => ?_) (by simp)
    rcases List.mem_append.1 ht with ht | ht
    · exact dot_not_mem_of_mem_segments ht
    · rwa [List.mem_singleton.1 ht]
  rw [splitLast_eq hsegments, join_segments]

end Dotted

namespace TypeKey

variable {j k : TypeKey}

/-- The key is read back from its full name and its arity. -/
theorem ofFullName_fullName (h : '.' ∉ k.name.toList) : ofFullName k.fullName k.arity = k := by
  have hsplit : Dotted.splitLast k.fullName = (k.ns, k.name) := by
    by_cases hns : k.ns = ""
    · rw [fullName, if_pos hns, hns, Dotted.splitLast_of_dot_not_mem h]
    · rw [fullName, if_neg hns, Dotted.splitLast_append h]
  rw [ofFullName, hsplit]

theorem fullName_inj (hj : '.' ∉ j.name.toList) (hk : '.' ∉ k.name.toList)
    (harity : j.arity = k.arity) : j.fullName = k.fullName ↔ j = k := by
  constructor
  · intro h
    rw [← ofFullName_fullName hj, h, harity, ofFullName_fullName hk]
  · exact congrArg fullName

theorem ofFullName_leading_dot {name : String} (h : '.' ∉ name.toList) (arity : Nat) :
    ofFullName ("." ++ name) arity = ⟨"", name, arity⟩ := by
  have hsplit := Dotted.splitLast_append h ""
  rw [String.empty_append] at hsplit
  rw [ofFullName, hsplit]

/-- A leading dot that is the only one is lost; every other text is read without loss. -/
theorem fullName_ofFullName_eq_iff (text : String) (arity : Nat) :
    (ofFullName text arity).fullName = text ↔
      ¬ ∃ name, '.' ∉ name.toList ∧ text = "." ++ name := by
  obtain ⟨init, last, h⟩ := Dotted.exists_segments_eq_concat text
  constructor
  · rintro heq ⟨name, hname, rfl⟩
    rw [ofFullName_leading_dot hname, fullName_global] at heq
    simpa using congrArg String.length heq
  · intro hdot
    have hinit : init ≠ [""] := by
      rintro rfl
      refine hdot ⟨last, (dot_not_mem_of_segments_eq h).1, ?_⟩
      rw [← Dotted.join_segments text, h]
      exact Dotted.join_concat (by simp) last
    rw [fullName_ofFullName h, if_neg hinit]

theorem eq_iff : j = k ↔ j.ns = k.ns ∧ j.name = k.name ∧ j.arity = k.arity := by
  cases j
  cases k
  simp

/-- The key without type parameters whose name has the arity behind it, unless that is zero. -/
def printed (k : TypeKey) : TypeKey :=
  ⟨k.ns, if k.arity = 0 then k.name else k.name ++ "`" ++ toString k.arity, 0⟩

theorem printed_of_arity_zero (h : k.arity = 0) : k.printed = k := by
  rw [printed, if_pos h, eq_iff]
  exact ⟨rfl, rfl, h.symm⟩

theorem printed_of_arity_ne (h : k.arity ≠ 0) :
    k.printed = ⟨k.ns, k.name ++ "`" ++ toString k.arity, 0⟩ := by
  rw [printed, if_neg h]

theorem reflectionName_eq_fullName_printed (k : TypeKey) :
    k.reflectionName = k.printed.fullName := by
  by_cases harity : k.arity = 0
  · rw [reflectionName_of_arity_zero harity, printed_of_arity_zero harity]
  · rw [reflectionName, if_neg harity, printed_of_arity_ne harity, fullName, fullName]
    by_cases hns : k.ns = ""
    · rw [if_pos hns, if_pos hns]
    · rw [if_neg hns, if_neg hns]
      simp only [String.append_assoc]

theorem dot_not_mem_printed (h : '.' ∉ k.name.toList) : '.' ∉ k.printed.name.toList := by
  by_cases harity : k.arity = 0
  · rwa [printed_of_arity_zero harity]
  · have hdigits : '.' ∉ (toString k.arity).toList := not_mem_toString (by decide) k.arity
    rw [printed_of_arity_ne harity]
    simp only [String.toList_append, List.mem_append, not_or]
    exact ⟨⟨h, by decide⟩, hdigits⟩

/-- The first key, without type parameters, is named as the second one is printed. -/
structure Spells (j k : TypeKey) : Prop where
  ns : j.ns = k.ns
  arity_eq_zero : j.arity = 0
  arity_ne_zero : k.arity ≠ 0
  name : j.name = k.name ++ "`" ++ toString k.arity

theorem spells_iff : j.Spells k ↔ k.arity ≠ 0 ∧ j = k.printed := by
  constructor
  · intro h
    refine ⟨h.arity_ne_zero, ?_⟩
    rw [printed_of_arity_ne h.arity_ne_zero, eq_iff]
    exact ⟨h.ns, h.name, h.arity_eq_zero⟩
  · rintro ⟨harity, rfl⟩
    rw [printed_of_arity_ne harity]
    exact ⟨rfl, rfl, harity, rfl⟩

theorem Spells.backtick_mem (h : j.Spells k) : '\x60' ∈ j.name.toList := by
  rw [h.name]
  simp

/-- The last backtick of a numbered name tells the number from the name. -/
theorem numbered_inj {name name' : String} {m n : Nat} :
    name ++ "`" ++ toString m = name' ++ "`" ++ toString n ↔ name = name' ∧ m = n := by
  have hbacktick : "`" = String.singleton '\x60' := rfl
  rw [hbacktick]
  exact append_number_inj (by decide)

theorem printed_eq_iff : j.printed = k.printed ↔ j = k ∨ j.Spells k ∨ k.Spells j := by
  rw [spells_iff, spells_iff]
  by_cases hj : j.arity = 0 <;> by_cases hk : k.arity = 0
  · simp [printed_of_arity_zero hj, printed_of_arity_zero hk, hj, hk]
  · have hne : j ≠ k := fun he => hk (he ▸ hj)
    simp [printed_of_arity_zero hj, hj, hk, hne]
  · have hne : j ≠ k := fun he => hj (he ▸ hk)
    simp [printed_of_arity_zero hk, hj, hk, hne, eq_comm]
  · have hnot : ¬ (j = k.printed ∨ k = j.printed) := by
      rintro (he | he)
      exacts [hj (he ▸ rfl), hk (he ▸ rfl)]
    rw [and_iff_right hj, and_iff_right hk, or_iff_left hnot, printed_of_arity_ne hj,
      printed_of_arity_ne hk, mk.injEq, numbered_inj, and_iff_left rfl, eq_iff]

theorem reflectionName_eq_iff (hj : '.' ∉ j.name.toList) (hk : '.' ∉ k.name.toList) :
    j.reflectionName = k.reflectionName ↔ j = k ∨ j.Spells k ∨ k.Spells j := by
  rw [reflectionName_eq_fullName_printed, reflectionName_eq_fullName_printed,
    fullName_inj (dot_not_mem_printed hj) (dot_not_mem_printed hk) rfl, printed_eq_iff]

theorem typeKey_inspection_eq_iff :
    Inspection.typeKey j = Inspection.typeKey k ↔ j.reflectionName = k.reflectionName := by
  rw [Inspection.typeKey, Inspection.typeKey, Inspection.tagged, Inspection.tagged,
    String.append_left_inj, String.append_right_inj]

end TypeKey

/-- A key without fault is read back from its full name and its arity, so no two such keys of one
arity have one full name. The name part of a full name has no dot. A full name is the name of the
key that is read from it, unless its last dot is at its start: that dot is lost. -/
theorem full_names_round_trip :
    (∀ k : TypeKey, k.fault? = none → TypeKey.ofFullName k.fullName k.arity = k) ∧
    (∀ j k : TypeKey, j.fault? = none → k.fault? = none → j.arity = k.arity →
      (j.fullName = k.fullName ↔ j = k)) ∧
    (∀ text, '.' ∉ (Dotted.splitLast text).2.toList) ∧
    (∀ text arity, (TypeKey.ofFullName text arity).fullName = text ↔
      ¬ ∃ name, '.' ∉ name.toList ∧ text = "." ++ name) ∧
    ∀ name arity, '.' ∉ name.toList → (TypeKey.ofFullName ("." ++ name) arity).fullName = name := by
  have hsimple : ∀ k : TypeKey, k.fault? = none → '.' ∉ k.name.toList :=
    fun k hk => (TypeKey.fault?_eq_none_iff k).1 hk |>.2.1
  refine ⟨fun k hk => TypeKey.ofFullName_fullName (hsimple k hk), fun j k hj hk harity => ?_,
    Dotted.dot_not_mem_splitLast, TypeKey.fullName_ofFullName_eq_iff, fun name arity hname => ?_⟩
  · exact TypeKey.fullName_inj (hsimple j hj) (hsimple k hk) harity
  · rw [TypeKey.ofFullName_leading_dot hname, TypeKey.fullName_global]

/-- Names in a namespace and below it, and texts with a leading and with a doubled dot. -/
theorem full_names_round_trip_dots :
    TypeKey.ofFullName (TypeKey.fullName ⟨"N.M", "A", 2⟩) 2 = ⟨"N.M", "A", 2⟩ ∧
    TypeKey.fullName ⟨"N.M", "A", 2⟩ ≠ TypeKey.fullName ⟨"N", "A", 2⟩ ∧
    (TypeKey.ofFullName "N..A" 0).fullName = "N..A" ∧
    (TypeKey.ofFullName ("." ++ "A") 0).fullName = "A" := by
  obtain ⟨hread, hinj, -, htext, hdot⟩ := full_names_round_trip
  refine ⟨hread ⟨"N.M", "A", 2⟩ (by decide), ?_, (htext "N..A" 0).2 ?_, hdot "A" 0 (by decide)⟩
  · exact mt (hinj ⟨"N.M", "A", 2⟩ ⟨"N", "A", 2⟩ (by decide) (by decide) rfl).1 (by decide)
  · rintro ⟨name, -, hname⟩
    exact absurd (congrArg (·.toList.head?) hname) (by simp)

/-- Two keys without fault are printed alike if and only if they are equal or one of them, without
type parameters, has the name of the other with a backtick and the arity of the other behind it; so
the text tells keys apart whose names have no backtick. -/
theorem reflection_names_agree_iff {j k : TypeKey} (hj : j.fault? = none) (hk : k.fault? = none) :
    (j.reflectionName = k.reflectionName ↔ j = k ∨ j.Spells k ∨ k.Spells j) ∧
    (Inspection.typeKey j = Inspection.typeKey k ↔ j = k ∨ j.Spells k ∨ k.Spells j) ∧
    ('\x60' ∉ j.name.toList → '\x60' ∉ k.name.toList →
      (j.reflectionName = k.reflectionName ↔ j = k)) := by
  have hagree : j.reflectionName = k.reflectionName ↔ j = k ∨ j.Spells k ∨ k.Spells j :=
    TypeKey.reflectionName_eq_iff ((TypeKey.fault?_eq_none_iff j).1 hj).2.1
      ((TypeKey.fault?_eq_none_iff k).1 hk).2.1
  refine ⟨hagree, TypeKey.typeKey_inspection_eq_iff.trans hagree, fun hj hk => ?_⟩
  have hnot : ¬ (j.Spells k ∨ k.Spells j) := by
    rintro (h | h)
    exacts [hj h.backtick_mem, hk h.backtick_mem]
  rw [hagree, or_iff_left hnot]

/-- The arity as part of the name, and two arities one of which starts with the other. -/
theorem reflection_names_agree_iff_list :
    TypeKey.reflectionName ⟨"N", "List`1", 0⟩ = TypeKey.reflectionName ⟨"N", "List", 1⟩ ∧
    TypeKey.reflectionName ⟨"N", "List", 1⟩ ≠ TypeKey.reflectionName ⟨"N", "List", 11⟩ := by
  have hspelled := reflection_names_agree_iff (j := ⟨"N", "List`1", 0⟩) (k := ⟨"N", "List", 1⟩)
    (by decide) (by decide)
  have hplain := reflection_names_agree_iff (j := ⟨"N", "List", 1⟩) (k := ⟨"N", "List", 11⟩)
    (by decide) (by decide)
  refine ⟨hspelled.1.2 (.inr (.inl ⟨rfl, rfl, by decide, by decide⟩)), ?_⟩
  exact mt (hplain.2.2 (by decide) (by decide)).1 (by decide)

end TypeCatalog
