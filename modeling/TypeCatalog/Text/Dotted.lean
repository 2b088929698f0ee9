/-!
Dotted texts. A text is cut at every dot, so there is always one segment more than there are
dots; joining the segments with dots gives the text back. A full name is cut into the segments
before its last dot and the one after it.
-/

namespace TypeCatalog.Dotted

/-- The texts between the dots, in order. The empty text is one empty segment. -/
def segments (text : String) : List String :=
  (text.toList.splitOn '.').map String.ofList

def join (segments : List String) : String :=
  ".".intercalate segments

/-- What stands before the last dot and what stands after it; all is after if there is no dot. -/
def splitLast (text : String) : String × String :=
  (join (segments text).dropLast, (segments text).getLastD "")

/-- The segments of a namespace path. The global namespace, written as the empty text, has none. -/
def namespaceSegments (path : String) : List String :=
  if path = "" then [] else segments path

/-- A namespace path is well formed if none of its segments is empty. -/
def isWellFormedNamespace (path : String) : Bool :=
  (namespaceSegments path).all (· ≠ "")

@[simp] theorem namespaceSegments_empty : namespaceSegments "" = [] := rfl

theorem namespaceSegments_of_ne {path : String} (h : path ≠ "") :
    namespaceSegments path = segments path := if_neg h

@[simp] theorem isWellFormedNamespace_empty : isWellFormedNamespace "" = true := rfl

theorem isWellFormedNamespace_of_ne {path : String} (h : path ≠ "") :
    isWellFormedNamespace path = true ↔ "" ∉ segments path := by
  rw [isWellFormedNamespace, namespaceSegments_of_ne h, List.all_eq_true]
  exact ⟨fun hall hmem => by simpa using hall "" hmem,
    fun hmem t ht => by simpa using fun he : t = "" => hmem (he ▸ ht)⟩

theorem segments_ne_nil (text : String) : segments text ≠ [] := by
  simp [segments, List.splitOn_ne_nil]

theorem toList_join (texts : List String) :
    (join texts).toList = ['.'].intercalate (texts.map String.toList) := by
  simp [join]

/-- Cutting a text loses nothing. -/
@[simp] theorem join_segments (text : String) : join (segments text) = text := by
  rw [← String.toList_inj, toList_join]
  simp [segments, Function.comp_def]

/-- The segments of a joined list are that list, if no text of it has a dot of its own. -/
theorem segments_join {texts : List String} (h : ∀ t ∈ texts, '.' ∉ t.toList) (hne : texts ≠ []) :
    segments (join texts) = texts := by
  rw [segments, toList_join, List.splitOn_intercalate]
  · simp [Function.comp_def]
  · simpa using h
  · simpa using hne

theorem segments_of_dot_not_mem {text : String} (h : '.' ∉ text.toList) :
    segments text = [text] := by
  have hsegments : segments (join [text]) = [text] :=
    segments_join (fun t ht => List.mem_singleton.1 ht ▸ h) (List.cons_ne_nil text [])
  rwa [join, String.intercalate_singleton] at hsegments

theorem not_mem_of_mem_splitOn {c : Char} {l piece : List Char} (h : piece ∈ l.splitOn c) :
    c ∉ piece := by
  induction l generalizing piece with
  | nil => simp_all
  | cons d l ih =>
    obtain ⟨first, rest, hl⟩ := List.exists_cons_of_ne_nil (List.splitOn_ne_nil c l)
    rw [List.splitOn_cons_eq_if_modifyHead, hl, List.modifyHead_cons] at h
    rw [hl] at ih
    split at h
    · rcases List.mem_cons.1 h with rfl | h
      · exact List.not_mem_nil
      · exact ih h
    · rename_i hd
      rcases List.mem_cons.1 h with rfl | h
      · have hne : c ≠ d := fun he => hd (beq_iff_eq.2 he.symm)
        simpa [hne] using ih List.mem_cons_self
      · exact ih (List.mem_cons_of_mem _ h)

theorem dot_not_mem_of_mem_segments {text t : String} (h : t ∈ segments text) :
    '.' ∉ t.toList := by
  obtain ⟨piece, hpiece, rfl⟩ := List.mem_map.1 h
  rw [String.toList_ofList]
  exact not_mem_of_mem_splitOn hpiece

theorem exists_segments_eq_concat (text : String) :
    ∃ init last, segments text = init ++ [last] :=
  ⟨_, _, (List.dropLast_concat_getLast (segments_ne_nil text)).symm⟩

theorem splitLast_eq {text last : String} {init : List String}
    (h : segments text = init ++ [last]) : splitLast text = (join init, last) := by
  simp [splitLast, h]

theorem join_concat {texts : List String} (h : texts ≠ []) (t : String) :
    join (texts ++ [t]) = join texts ++ "." ++ t := by
  rw [join, String.intercalate_append_of_ne_nil h (List.cons_ne_nil _ _),
    String.intercalate_singleton, join]

section DotFree

variable {texts : List String} (h : ∀ t ∈ texts, '.' ∉ t.toList)
include h

theorem join_eq_empty_iff : join texts = "" ↔ texts = [] ∨ texts = [""] := by
  constructor
  · intro hjoin
    by_cases hne : texts = []
    · exact .inl hne
    · rw [← segments_join h hne, hjoin]
      exact .inr rfl
  · rintro (rfl | rfl) <;> rfl

/-- One empty segment alone is lost, because the empty path stands for no segment. -/
theorem isWellFormedNamespace_join_iff :
    isWellFormedNamespace (join texts) = true ↔ texts = [""] ∨ "" ∉ texts := by
  by_cases hjoin : join texts = ""
  · rcases (join_eq_empty_iff h).1 hjoin with rfl | rfl <;> simp [hjoin]
  · rw [isWellFormedNamespace_of_ne hjoin]
    rw [join_eq_empty_iff h, not_or] at hjoin
    rw [segments_join h hjoin.1, or_iff_right hjoin.2]

theorem namespaceSegments_join (hne : texts ≠ [""]) :
    namespaceSegments (join texts) = texts := by
  by_cases hjoin : join texts = ""
  · rw [hjoin, namespaceSegments_empty]
    exact (((join_eq_empty_iff h).1 hjoin).resolve_right hne).symm
  · rw [namespaceSegments_of_ne hjoin]
    exact segments_join h fun hnil => hjoin (hnil ▸ rfl)

end DotFree

theorem join_namespaceSegments (path : String) : join (namespaceSegments path) = path := by
  by_cases hpath : path = ""
  · subst hpath
    rfl
  · rw [namespaceSegments_of_ne hpath, join_segments]

end TypeCatalog.Dotted
