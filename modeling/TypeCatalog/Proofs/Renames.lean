import TypeCatalog.Proofs.Places
import TypeCatalog.Proofs.Pruning

/-!
# Files under a new identity

A change of a file that gives it a new identity takes out the old one first. What comes then depends
on the new identity. If no file has it, the new file goes to the end. If there is one, the new file
stands in its place, and the files behind that one, but for the old one, stay behind. Parts are
merged in file order, so the parts of the new file come after those of all files but these.
-/

namespace TypeCatalog

namespace Roster

variable {α ι : Type} [Identified α ι] [DecidableEq ι]

/-- The values behind the one with an identity; there are none if nothing has it. -/
def behind (r : Roster α) (i : ι) : List α :=
  (r.toList.dropWhile (identity · ≠ i)).tail

theorem dropWhile_place (a : α) (l : List α) :
    (place a l).dropWhile (identity · ≠ identity a) =
      a :: (l.dropWhile (identity · ≠ identity a)).tail := by
  induction l with
  | nil => simp [place]
  | cons b rest ih =>
    by_cases h : identity b = identity a
    · simp [place, h]
    · rw [place, if_neg h, List.dropWhile_cons_of_pos (by simpa using h), ih,
        List.dropWhile_cons_of_pos (by simpa using h)]

/-- A value that is put in stands before those that were behind its identity. -/
theorem exists_toList_insert (r : Roster α) (a : α) :
    ∃ ahead, (r.insert a).toList = ahead ++ a :: r.behind (identity a) := by
  have h := List.takeWhile_append_dropWhile (p := fun b : α => decide (identity b ≠ identity a))
    (l := place a r.toList)
  rw [dropWhile_place] at h
  exact ⟨_, h.symm⟩

theorem tail_dropWhile_filter {i j : ι} (h : i ≠ j) (l : List α) :
    ((l.filter (identity · ≠ j)).dropWhile (identity · ≠ i)).tail =
      (l.dropWhile (identity · ≠ i)).tail.filter (identity · ≠ j) := by
  induction l with
  | nil => rfl
  | cons b rest ih =>
    by_cases hi : identity b = i
    · have hj : identity b ≠ j := hi ▸ h
      rw [List.filter_cons_of_pos (by simpa using hj),
        List.dropWhile_cons_of_neg (by simpa using hi),
        List.dropWhile_cons_of_neg (by simpa using hi), List.tail_cons, List.tail_cons]
    · rw [List.dropWhile_cons_of_pos (by simpa using hi), ← ih, List.filter_cons]
      split
      · rw [List.dropWhile_cons_of_pos (by simpa using hi)]
      · rfl

/-- What is taken out is no longer behind anything; the others stay where they are. -/
theorem behind_erase (r : Roster α) {i j : ι} (h : i ≠ j) :
    (r.erase j).behind i = (r.behind i).filter (identity · ≠ j) :=
  tail_dropWhile_filter h r.toList

theorem getLast?_insert_eq_some_iff (r : Roster α) (a : α) :
    (r.insert a).toList.getLast? = some a ↔ r.behind (identity a) = [] := by
  obtain ⟨ahead, h⟩ := exists_toList_insert r a
  have hdistinct := (r.insert a).distinct
  rw [h] at hdistinct ⊢
  rw [List.map_append, List.map_cons, List.nodup_append] at hdistinct
  constructor
  · intro hlast
    by_contra hne
    -- the last value would stand both at the end and before what is behind it
    rw [List.getLast?_append_cons, List.getLast?_cons_of_ne_nil hne] at hlast
    exact (List.nodup_cons.1 hdistinct.2.1).1 (List.mem_map_of_mem (List.mem_of_getLast? hlast))
  · intro hnil
    rw [hnil, List.getLast?_concat]

end Roster

theorem Part.ofFiles_append (files files' : List SourceFile) : ofFiles (files ++ files') =
    ofFiles files ++ (files'.mapIdx fun n file => ofFile file (n + files.length)).flatten := by
  rw [ofFiles, List.mapIdx_append, List.flatten_append, ofFiles]

theorem Part.exists_file_of_mem_mapIdx {files : List SourceFile} {place : Nat → Nat} {part : Part}
    (h : part ∈ (files.mapIdx fun n file => ofFile file (place n)).flatten) :
    ∃ file ∈ files, part.file = file.identity := by
  obtain ⟨l, hl, hpart⟩ := List.mem_flatten.1 h
  obtain ⟨n, hn, rfl⟩ := List.mem_mapIdx.1 hl
  exact ⟨_, List.getElem_mem hn, (of_mem_ofFile hpart).2⟩

namespace Project

/-- The declarations at these places are in files ahead, then in the file, then in files behind. -/
def MergesBetween (p : Project) (file : String) (behind : List String) (ids : List DeclId) : Prop :=
  ∃ ahead own rest, ids.mapM p.partAt? = some (ahead ++ own ++ rest) ∧
    (∀ part ∈ ahead, part.file ≠ file ∧ part.file ∉ behind) ∧
    (∀ part ∈ own, part.file = file) ∧
    ∀ part ∈ rest, part.file ∈ behind

/-- Parts are merged in the order of their files. -/
theorem mergesBetween_content {p : Project} {ahead rest : List SourceFile} {file : SourceFile}
    (h : p.files.toList = ahead ++ file :: rest) (k : TypeKey) :
    p.MergesBetween file.identity (rest.map SourceFile.identity) (p.content k).parts := by
  obtain ⟨kept, hkept, hparts⟩ := p.exists_sublist_partsOf k
  have hall : ∀ part ∈ kept, p.partAt? part.id = some part :=
    fun part hp => partAt?_of_mem_partsOf (hkept.subset hp)
  have hdistinct := p.files.distinct
  rw [h, List.map_append, List.map_cons, List.nodup_append, List.nodup_cons] at hdistinct
  have hsplit := hkept.trans List.filter_sublist
  rw [h, Part.ofFiles_append, List.mapIdx_cons, List.flatten_cons, ← List.append_assoc] at hsplit
  obtain ⟨front, behind, rfl, hfront, hbehind⟩ := List.sublist_append_iff.1 hsplit
  obtain ⟨before, own, rfl, hbefore, hown⟩ := List.sublist_append_iff.1 hfront
  refine ⟨before, own, behind, ?_, fun part hp => ?_, fun part hp => ?_, fun part hp => ?_⟩
  · rw [hparts, mapM_partAt? hall]
  · obtain ⟨other, hother, hfile⟩ := Part.exists_file_of_mem_mapIdx (hbefore.subset hp)
    have hapart := hdistinct.2.2 _ (List.mem_map_of_mem hother)
    exact hfile ▸ ⟨hapart _ List.mem_cons_self, fun hb => hapart _ (List.mem_cons_of_mem _ hb) rfl⟩
  · exact (Part.of_mem_ofFile (hown.subset hp)).2
  · obtain ⟨other, hother, hfile⟩ := Part.exists_file_of_mem_mapIdx (hbehind.subset hp)
    exact hfile ▸ List.mem_map_of_mem hother

theorem files_edit_changeFile (p : Project) {old : String} {new : SourceFile}
    (h : new.identity ≠ old) :
    (p.edit (.changeFile (some old) (some new))).files = (p.files.erase old).insert new :=
  if_neg (Ne.symm h)

end Project

/-- A file that is given a new identity takes out the old one, and the other files keep their order.
It stands before the files that were behind a file of its identity, but for the old one, and so it
is the last file exactly if there are none. In every history the parts of every key are merged in
this order. -/
theorem renamed_file_stands_before (s : Snapshot) (old : String) (new : SourceFile)
    (h : new.identity ≠ old) (qs : List Query) :
    let s' := s.update (.changeFile (some old) (some new))
    let behind := (s.project.files.behind new.identity).filter (identity · ≠ old)
    old ∉ s'.project.files.identities ∧
    s'.project.files.toList.filter (identity · ≠ new.identity) =
      s.project.files.toList.filter (fun f => identity f ≠ new.identity ∧ identity f ≠ old) ∧
    (∃ ahead, s'.project.files.toList = ahead ++ new :: behind) ∧
    (s'.project.files.toList.getLast? = some new ↔ behind = []) ∧
    ∀ k, s'.project.MergesBetween new.identity (behind.map identity)
      (((Compilation.create s').after qs).describe k).parts := by
  intro s' behind
  have hfiles : s'.project.files = (s.project.files.erase old).insert new :=
    s.project.files_edit_changeFile h
  have hbehind : (s.project.files.erase old).behind new.identity = behind :=
    s.project.files.behind_erase h
  obtain ⟨ahead, hahead⟩ := (s.project.files.erase old).exists_toList_insert new
  have hlist : s'.project.files.toList = ahead ++ new :: behind := by
    rw [hfiles, hahead]
    exact congrArg (ahead ++ new :: ·) hbehind
  refine ⟨?_, ?_, ⟨ahead, hlist⟩, ?_, fun k => ?_⟩
  · have herased : old ∉ (s.project.files.erase old).identities := by simp
    rw [hfiles, Roster.identities_insert]
    split
    · exact herased
    · rw [List.mem_append, List.mem_singleton]
      rintro (hold | hnew)
      · exact herased hold
      · exact h hnew.symm
  · rw [hfiles, Roster.filter_insert (by simp [identity]) (by simp [identity]), Roster.erase,
      List.filter_filter]
    simp only [Bool.decide_and]
  · rw [hfiles, Roster.getLast?_insert_eq_some_iff, ← hbehind]
    rfl
  · rw [Compilation.describe_after]
    exact Project.mergesBetween_content hlist k

/-- A file with one part of a class. -/
def SourceFile.onePart (identity : String) : SourceFile :=
  ⟨identity, [⟨"", "A", .classType, [], [], [], true⟩]⟩

def Snapshot.threeParts : Snapshot :=
  initial.update (.addFiles [.onePart "a.cs", .onePart "b.cs", .onePart "c.cs"])

/-- The last file is given the identity of the first one, which another file is behind. -/
theorem renamed_file_stands_before_taken :
    let s' := Snapshot.threeParts.update (.changeFile (some "c.cs") (some (.onePart "a.cs")))
    (SourceFile.onePart "a.cs").identity ≠ "c.cs" ∧ "c.cs" ∉ s'.project.files.identities ∧
    (∃ ahead, s'.project.files.toList = ahead ++ .onePart "a.cs" :: [.onePart "b.cs"]) ∧
    s'.project.MergesBetween "a.cs" ["b.cs"]
      (((Compilation.create s').after [.checkAll]).describe ⟨"", "A", 0⟩).parts := by
  intro s'
  have hne : (SourceFile.onePart "a.cs").identity ≠ "c.cs" := by decide
  obtain ⟨hold, -, hlist, -, hmerges⟩ :=
    renamed_file_stands_before .threeParts "c.cs" (.onePart "a.cs") hne [.checkAll]
  exact ⟨hne, hold, hlist, hmerges ⟨"", "A", 0⟩⟩

/-- A file that is given the identity of the first one is not the last, and its part does not come
after that of the other file. -/
theorem renamed_file_stays_ahead :
    let s' := Snapshot.threeParts.update (.changeFile (some "c.cs") (some (.onePart "a.cs")))
    (SourceFile.onePart "a.cs").identity ≠ "c.cs" ∧
    s'.project.files.toList.getLast? ≠ some (.onePart "a.cs") ∧
    s'.project.files.identities = ["a.cs", "b.cs"] ∧
    ¬ s'.project.MergesBetween "a.cs" []
      (((Compilation.create s').after []).describe ⟨"", "A", 0⟩).parts := by
  intro s'
  refine ⟨by decide, by decide, by decide, ?_⟩
  have hread : (((Compilation.create s').after []).describe ⟨"", "A", 0⟩).parts.mapM
      s'.project.partAt? = some [⟨⟨0, 0⟩, "a.cs", ⟨"", "A", .classType, [], [], [], true⟩⟩,
        ⟨⟨1, 0⟩, "b.cs", ⟨"", "A", .classType, [], [], [], true⟩⟩] := by decide +kernel
  rintro ⟨ahead, own, rest, hparts, hahead, hown, hrest⟩
  rw [hread, Option.some.injEq] at hparts
  obtain rfl : rest = [] := List.eq_nil_iff_forall_not_mem.2 fun part hp => by
    simpa using hrest part hp
  cases ahead with
  | nil =>
    -- then the part of the other file would be one of the new file
    rw [List.nil_append, List.append_nil] at hparts
    have hother : "b.cs" = "a.cs" :=
      hown ⟨⟨1, 0⟩, "b.cs", ⟨"", "A", .classType, [], [], [], true⟩⟩ (by simp [← hparts])
    exact absurd hother (by decide)
  | cons part ahead =>
    obtain ⟨rfl, -⟩ := List.cons.inj hparts
    exact (hahead _ List.mem_cons_self).1 rfl

end TypeCatalog
