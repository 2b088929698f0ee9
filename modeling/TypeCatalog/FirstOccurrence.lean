import Std.Data.TreeSet

/-!
First occurrences. Of the elements that share a key only the first is kept, and the order of the
kept ones does not change. Keys are compared by their order, so a long list costs one search per
element.
-/

namespace TypeCatalog

variable {α κ : Type} [Ord κ]

/-- Walks the list with the keys that were met before. -/
def firstBy.collect (key : α → κ) (met : Std.TreeSet κ) (kept : Array α) : List α → Array α
  | [] => kept
  | a :: rest =>
    if met.contains (key a) then firstBy.collect key met kept rest
    else firstBy.collect key (met.insert (key a)) (kept.push a) rest

/-- The elements whose key no earlier element has. -/
def firstBy (key : α → κ) (elements : List α) : List α :=
  (firstBy.collect key ∅ #[] elements).toList

/-- Each element once, at the place where it is first met. -/
def distinct (elements : List κ) : List κ :=
  firstBy id elements

/-- The same selection by plain recursion, given the keys that were met before the list. -/
def firstBy.unmet (key : α → κ) (met : κ → Bool) : List α → List α
  | [] => []
  | a :: rest =>
    if met (key a) then firstBy.unmet key met rest
    else a :: firstBy.unmet key (fun k => compare (key a) k == .eq || met k) rest

theorem firstBy.collect_eq [Std.TransOrd κ] (key : α → κ) (met : Std.TreeSet κ) (kept : Array α)
    (elements : List α) :
    (firstBy.collect key met kept elements).toList =
      kept.toList ++ firstBy.unmet key met.contains elements := by
  induction elements generalizing met kept with
  | nil => simp [firstBy.collect, firstBy.unmet]
  | cons a rest ih =>
    simp only [firstBy.collect, firstBy.unmet]
    split
    · exact ih met kept
    · rw [ih]
      have h : (met.insert (key a)).contains =
          fun k => compare (key a) k == .eq || met.contains k := by
        funext k
        exact Std.TreeSet.contains_insert
      rw [h]
      simp

theorem firstBy_eq [Std.TransOrd κ] (key : α → κ) (elements : List α) :
    firstBy key elements = firstBy.unmet key (fun _ => false) elements := by
  have h : (∅ : Std.TreeSet κ).contains = fun _ => false := by
    funext k
    exact Std.TreeSet.contains_emptyc
  simp [firstBy, firstBy.collect_eq, h]

theorem firstBy.unmet_sublist (key : α → κ) (met : κ → Bool) (elements : List α) :
    (firstBy.unmet key met elements).Sublist elements := by
  induction elements generalizing met with
  | nil => exact .slnil
  | cons a rest ih =>
    simp only [firstBy.unmet]
    split
    · exact (ih met).cons a
    · exact (ih _).cons_cons a

theorem firstBy_sublist [Std.TransOrd κ] (key : α → κ) (elements : List α) :
    (firstBy key elements).Sublist elements := by
  rw [firstBy_eq]
  exact firstBy.unmet_sublist key _ elements

section Lawful

variable [Std.LawfulEqOrd κ]

theorem firstBy.mem_map_unmet (key : α → κ) (met : κ → Bool) (elements : List α) (k : κ) :
    k ∈ (firstBy.unmet key met elements).map key ↔ k ∈ elements.map key ∧ met k = false := by
  induction elements generalizing met with
  | nil => simp [firstBy.unmet]
  | cons a rest ih =>
    simp only [firstBy.unmet]
    split
    · rename_i h
      rw [ih, List.map_cons, List.mem_cons]
      constructor
      · exact fun hk => ⟨.inr hk.1, hk.2⟩
      · rintro ⟨rfl | hk, hm⟩
        · simp_all
        · exact ⟨hk, hm⟩
    · rename_i h
      rw [List.map_cons, List.mem_cons, ih, List.map_cons, List.mem_cons]
      by_cases hk : k = key a
      · subst hk
        simpa using h
      · have hc : compare (key a) k ≠ .eq := fun hc => hk (Std.LawfulEqOrd.eq_of_compare hc).symm
        simp [hk, hc]

theorem firstBy.nodup_map_unmet (key : α → κ) (met : κ → Bool) (elements : List α) :
    ((firstBy.unmet key met elements).map key).Nodup := by
  induction elements generalizing met with
  | nil => simp [firstBy.unmet]
  | cons a rest ih =>
    simp only [firstBy.unmet]
    split
    · exact ih met
    · refine List.nodup_cons.2 ⟨fun h => ?_, ih _⟩
      have := ((firstBy.mem_map_unmet key _ rest _).1 h).2
      simp at this

theorem firstBy.map_unmet [DecidableEq κ] (key : α → κ) (met : κ → Bool) (elements : List α) :
    (firstBy.unmet key met elements).map key =
      ((elements.map key).filter (!met ·)).eraseDups := by
  induction elements generalizing met with
  | nil => rfl
  | cons a rest ih =>
    rw [firstBy.unmet]
    split
    · rename_i h
      simp [ih, h]
    · rename_i h
      rw [List.map_cons, ih, List.map_cons, List.filter_cons_of_pos (by simpa using h),
        List.eraseDups_cons, List.filter_filter]
      congr 3
      funext k
      by_cases hk : key a = k
      · subst hk
        simp
      · have hc : (compare (key a) k == .eq) = false := by
          simpa using fun hc => hk (Std.LawfulEqOrd.eq_of_compare hc)
        have hne : (k == key a) = false := by simpa using Ne.symm hk
        simp [hc, hne]

theorem firstBy.find?_of_mem_unmet [DecidableEq κ] {key : α → κ} {met : κ → Bool}
    {elements : List α} {a : α} (h : a ∈ firstBy.unmet key met elements) :
    elements.find? (key · = key a) = some a := by
  induction elements generalizing met with
  | nil => cases h
  | cons b rest ih =>
    rw [firstBy.unmet] at h
    split at h
    · rename_i hb
      have ha : met (key a) = false :=
        ((firstBy.mem_map_unmet key met rest _).1 (List.mem_map_of_mem h)).2
      have hne : key b ≠ key a := fun he => by simp [he, ha] at hb
      rw [List.find?_cons_of_neg (by simpa using hne), ih h]
    · rcases List.mem_cons.1 h with rfl | h
      · simp
      · have ha := ((firstBy.mem_map_unmet key _ rest _).1 (List.mem_map_of_mem h)).2
        have hne : key b ≠ key a := fun he => by simp [he] at ha
        rw [List.find?_cons_of_neg (by simpa using hne), ih h]

/-- Elements that are not the first of their key may be dropped beforehand. -/
theorem firstBy.unmet_filter [DecidableEq κ] {key : α → κ} {met : κ → Bool} {keep : α → Bool}
    {elements : List α} (h : ∀ a, met (key a) = false →
      elements.find? (key · = key a) = some a → keep a = true) :
    firstBy.unmet key met (elements.filter keep) = firstBy.unmet key met elements := by
  induction elements generalizing met with
  | nil => rfl
  | cons a rest ih =>
    by_cases ha : met (key a) = true
    · have hrest : firstBy.unmet key met (rest.filter keep) = firstBy.unmet key met rest := by
        refine ih fun b hb hfirst => h b hb ?_
        have hne : key a ≠ key b := fun he => by simp [← he, ha] at hb
        rwa [List.find?_cons_of_neg (by simpa using hne)]
      rw [List.filter_cons, firstBy.unmet, if_pos ha]
      split
      · rw [firstBy.unmet, if_pos ha, hrest]
      · exact hrest
    · have hkeep : keep a = true := h a (by simpa using ha) (by simp)
      rw [List.filter_cons_of_pos hkeep, firstBy.unmet, firstBy.unmet, if_neg ha, if_neg ha, ih]
      intro b hb hfirst
      obtain ⟨hne, hb⟩ : compare (key a) (key b) ≠ .eq ∧ met (key b) = false := by simpa using hb
      have hne : key a ≠ key b := fun he => hne (Std.LawfulEqOrd.compare_eq_iff_eq.2 he)
      refine h b hb ?_
      rwa [List.find?_cons_of_neg (by simpa using hne)]

variable [Std.TransOrd κ]

/-- What is kept for a key is the first element with this key. -/
theorem find?_of_mem_firstBy [DecidableEq κ] {key : α → κ} {elements : List α} {a : α}
    (h : a ∈ firstBy key elements) : elements.find? (key · = key a) = some a := by
  rw [firstBy_eq] at h
  exact firstBy.find?_of_mem_unmet h

theorem firstBy_filter [DecidableEq κ] {key : α → κ} {keep : α → Bool} {elements : List α}
    (h : ∀ a, elements.find? (key · = key a) = some a → keep a = true) :
    firstBy key (elements.filter keep) = firstBy key elements := by
  rw [firstBy_eq, firstBy_eq]
  exact firstBy.unmet_filter fun a _ => h a

theorem mem_map_firstBy (key : α → κ) (elements : List α) (k : κ) :
    k ∈ (firstBy key elements).map key ↔ k ∈ elements.map key := by
  rw [firstBy_eq, firstBy.mem_map_unmet]
  simp

theorem nodup_map_firstBy (key : α → κ) (elements : List α) :
    ((firstBy key elements).map key).Nodup := by
  rw [firstBy_eq]
  exact firstBy.nodup_map_unmet key _ elements

@[simp] theorem mem_distinct (elements : List κ) (k : κ) :
    k ∈ distinct elements ↔ k ∈ elements := by
  simpa [distinct] using mem_map_firstBy id elements k

theorem nodup_distinct (elements : List κ) : (distinct elements).Nodup := by
  simpa [distinct] using nodup_map_firstBy id elements

/-- Keeping the first element of each key keeps the first occurrence of each key. -/
theorem map_firstBy [DecidableEq κ] (key : α → κ) (elements : List α) :
    (firstBy key elements).map key = (elements.map key).eraseDups := by
  rw [firstBy_eq, firstBy.map_unmet, List.filter_eq_self.2 (by simp)]

theorem distinct_eq_eraseDups [DecidableEq κ] (elements : List κ) :
    distinct elements = elements.eraseDups := by
  simpa [distinct] using map_firstBy id elements

/-- One more element is kept if it was not met before. -/
theorem distinct_concat [DecidableEq κ] (elements : List κ) (k : κ) :
    distinct (elements ++ [k]) =
      if k ∈ elements then distinct elements else distinct elements ++ [k] := by
  rw [distinct_eq_eraseDups, distinct_eq_eraseDups, List.eraseDups_append, List.removeAll]
  by_cases h : k ∈ elements <;> simp [h, List.eraseDups_cons]

end Lawful

section Values

variable [BEq α] [LawfulBEq α] {l : List α}

theorem eraseDups_eq_nil_iff : l.eraseDups = [] ↔ l = [] := by
  simp [List.eq_nil_iff_forall_not_mem]

theorem eraseDups_of_nodup (h : l.Nodup) : l.eraseDups = l := by
  induction l with
  | nil => rfl
  | cons a l ih =>
    obtain ⟨ha, hl⟩ := List.nodup_cons.1 h
    have hne : ∀ b ∈ l, (!b == a) = true := fun b hb => by
      simpa using fun he : b = a => ha (he ▸ hb)
    rw [List.eraseDups_cons, List.filter_eq_self.2 hne, ih hl]

end Values

end TypeCatalog
