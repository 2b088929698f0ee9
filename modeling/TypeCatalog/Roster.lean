/-!
Rosters. A roster is an ordered collection whose members are told apart by an identity. A newcomer
goes to the end; a member of a known identity takes the place of the one it replaces; removal keeps
the order of the others.
-/

namespace TypeCatalog

/-- Values of `α` are told apart by their identity. -/
class Identified (α : Type) (ι : outParam Type) where
  identity : α → ι

export Identified (identity)

structure Roster (α : Type) {ι : Type} [Identified α ι] where
  toList : List α
  distinct : (toList.map identity).Nodup

namespace Roster

variable {α ι : Type} [Identified α ι]

def empty : Roster α := ⟨[], List.nodup_nil⟩

instance : EmptyCollection (Roster α) := ⟨empty⟩
instance : Inhabited (Roster α) := ⟨empty⟩

@[simp] theorem toList_empty : (∅ : Roster α).toList = [] := rfl

@[ext] theorem ext {r s : Roster α} (h : r.toList = s.toList) : r = s := by
  cases r
  cases s
  simp_all

def identities (r : Roster α) : List ι :=
  r.toList.map identity

def size (r : Roster α) : Nat :=
  r.toList.length

variable [DecidableEq ι]

/-- Puts a value in the place of the first one with its identity, or at the end. -/
def place (a : α) : List α → List α
  | [] => [a]
  | b :: rest => if identity b = identity a then a :: rest else b :: place a rest

theorem map_identity_place (a : α) (l : List α) :
    (place a l).map identity =
      if identity a ∈ l.map identity then l.map identity else l.map identity ++ [identity a] := by
  induction l with
  | nil => simp [place]
  | cons b rest ih =>
    by_cases h : identity b = identity a
    · simp [place, h]
    · simp only [place, h, if_false, List.map_cons, ih, List.mem_cons, Ne.symm h, false_or]
      split <;> simp

theorem find?_place (a : α) (l : List α) (i : ι) :
    (place a l).find? (identity · = i) =
      if identity a = i then some a else l.find? (identity · = i) := by
  induction l with
  | nil => by_cases h : identity a = i <;> simp [place, h]
  | cons b rest ih =>
    by_cases h : identity b = identity a
    · by_cases hi : identity a = i <;> simp [place, h, hi]
    · by_cases hb : identity b = i
      · have : identity a ≠ i := fun ha => h (hb.trans ha.symm)
        rw [place, if_neg h, if_neg this, List.find?_cons_of_pos (by simpa),
          List.find?_cons_of_pos (by simpa)]
      · simp [place, h, hb, ih]

theorem of_mem_place {a b : α} {l : List α} (h : b ∈ place a l) : b = a ∨ b ∈ l := by
  induction l with
  | nil => exact .inl (List.mem_singleton.1 h)
  | cons c rest ih =>
    rw [place] at h
    split at h <;> rcases List.mem_cons.1 h with rfl | h
    · exact .inl rfl
    · exact .inr (List.mem_cons_of_mem _ h)
    · exact .inr List.mem_cons_self
    · exact (ih h).imp_right (List.mem_cons_of_mem _)

/-- A value of an unknown identity goes behind all others. -/
theorem place_append {a : α} {l : List α} (h : identity a ∉ l.map identity) (l' : List α) :
    place a (l ++ l') = l ++ place a l' := by
  induction l with
  | nil => rfl
  | cons b rest ih =>
    rw [List.map_cons, List.mem_cons, not_or] at h
    rw [List.cons_append, place, if_neg (Ne.symm h.1), ih h.2, List.cons_append]

/-- If neither a value nor the one it replaces has a property, those that have it stay. -/
theorem filter_place {P : α → Bool} {a : α} {l : List α} (ha : P a = false)
    (h : ∀ b ∈ l, identity b = identity a → P b = false) :
    (place a l).filter P = l.filter P := by
  induction l with
  | nil => simp [place, ha]
  | cons b rest ih =>
    rw [place]
    split
    · rename_i hid
      simp [ha, h b List.mem_cons_self hid]
    · rw [List.filter_cons, ih fun c hc => h c (List.mem_cons_of_mem _ hc), List.filter_cons]

def insert (r : Roster α) (a : α) : Roster α where
  toList := place a r.toList
  distinct := by
    rw [map_identity_place]
    split
    · exact r.distinct
    · rename_i h
      exact List.nodup_append.2 ⟨r.distinct, by simp, by simpa using fun b hb hab => h (by
        rw [← hab]; exact List.mem_map_of_mem hb)⟩

def insertAll (r : Roster α) (as : List α) : Roster α :=
  as.foldl insert r

def erase (r : Roster α) (i : ι) : Roster α where
  toList := r.toList.filter (identity · ≠ i)
  distinct := r.distinct.sublist (List.filter_sublist.map _)

def eraseAll (r : Roster α) (is : List ι) : Roster α :=
  is.foldl erase r

/-- Replaces a value in place, or removes the old one before the new one joins the roster. -/
def change (r : Roster α) : Option ι → Option α → Roster α
  | some old, some new => if old = identity new then r.insert new else (r.erase old).insert new
  | none, some new => r.insert new
  | some old, none => r.erase old
  | none, none => r

def find? (r : Roster α) (i : ι) : Option α :=
  r.toList.find? (identity · = i)

@[simp] theorem identities_insert (r : Roster α) (a : α) :
    (r.insert a).identities =
      if identity a ∈ r.identities then r.identities else r.identities ++ [identity a] :=
  map_identity_place a r.toList

@[simp] theorem find?_insert (r : Roster α) (a : α) (i : ι) :
    (r.insert a).find? i = if identity a = i then some a else r.find? i :=
  find?_place a r.toList i

@[simp] theorem identities_erase (r : Roster α) (i : ι) :
    (r.erase i).identities = r.identities.filter (· ≠ i) := by
  simp [identities, erase, List.filter_map, Function.comp_def]

@[simp] theorem find?_erase (r : Roster α) (i j : ι) :
    (r.erase i).find? j = if i = j then none else r.find? j := by
  simp only [find?, erase, List.find?_filter]
  split
  · rename_i h
    subst h
    simp
  · rename_i h
    congr 1
    funext a
    by_cases ha : identity a = j
    · simp [ha, Ne.symm h]
    · simp [ha]

/-- All values of unknown identities go behind the others. -/
theorem toList_insertAll {r : Roster α} {as : List α} (h : ∀ a ∈ as, identity a ∉ r.identities) :
    (r.insertAll as).toList = r.toList ++ (insertAll ∅ as).toList := by
  suffices hfrom : ∀ s t : Roster α, s.toList = r.toList ++ t.toList →
      (s.insertAll as).toList = r.toList ++ (t.insertAll as).toList from
    hfrom r ∅ (List.append_nil _).symm
  induction as with
  | nil => exact fun s t hst => hst
  | cons a as ih =>
    intro s t hst
    refine ih (fun b hb => h b (List.mem_cons_of_mem _ hb)) (s.insert a) (t.insert a) ?_
    have hplace := place_append (h a List.mem_cons_self) t.toList
    rwa [← hst] at hplace

theorem of_mem_insertAll {r : Roster α} {as : List α} {b : α} (h : b ∈ (r.insertAll as).toList) :
    b ∈ as ∨ b ∈ r.toList := by
  induction as generalizing r with
  | nil => exact .inr h
  | cons a as ih =>
    rcases ih h with hb | hb
    · exact .inl (List.mem_cons_of_mem _ hb)
    · rcases of_mem_place hb with rfl | hb
      · exact .inl List.mem_cons_self
      · exact .inr hb

section Filter

variable {P : α → Bool} {r : Roster α}

theorem filter_insert {a : α} (ha : P a = false)
    (h : ∀ b ∈ r.toList, identity b = identity a → P b = false) :
    (r.insert a).toList.filter P = r.toList.filter P :=
  filter_place ha h

theorem filter_erase {i : ι} (h : ∀ b ∈ r.toList, identity b = i → P b = false) :
    (r.erase i).toList.filter P = r.toList.filter P := by
  rw [erase, List.filter_filter]
  refine List.filter_congr fun b hb => ?_
  by_cases hid : identity b = i
  · simp [hid, h b hb hid]
  · simp [hid]

theorem filter_insertAll {as : List α} (ha : ∀ a ∈ as, P a = false)
    (h : ∀ b ∈ r.toList, identity b ∈ as.map identity → P b = false) :
    (r.insertAll as).toList.filter P = r.toList.filter P := by
  induction as generalizing r with
  | nil => rfl
  | cons a as ih =>
    have hhead := ha a List.mem_cons_self
    have hnext : (r.insert a).toList.filter P = r.toList.filter P :=
      filter_insert hhead fun b hb hid => h b hb (hid ▸ List.mem_cons_self)
    rw [← hnext]
    refine ih (fun b hb => ha b (List.mem_cons_of_mem _ hb)) fun b hb hid => ?_
    rcases of_mem_place hb with rfl | hb
    · exact hhead
    · exact h b hb (List.mem_cons_of_mem _ hid)

theorem filter_change {old : Option ι} {new : Option α} (ha : ∀ a ∈ new, P a = false)
    (h : ∀ b ∈ r.toList, identity b ∈ old ∨ identity b ∈ new.map identity → P b = false) :
    (r.change old new).toList.filter P = r.toList.filter P := by
  have hinsert : ∀ a ∈ new, (r.insert a).toList.filter P = r.toList.filter P := fun a hnew =>
    filter_insert (ha a hnew) fun b hb hid => h b hb (.inr (by simp [Option.mem_def.1 hnew, hid]))
  have herase : ∀ i ∈ old, (r.erase i).toList.filter P = r.toList.filter P := fun i hold =>
    filter_erase fun b hb hid => h b hb (.inl (hid ▸ hold))
  cases old with
  | none =>
    cases new with
    | none => rfl
    | some a => exact hinsert a rfl
  | some i =>
    cases new with
    | none => exact herase i rfl
    | some a =>
      rw [change]
      split
      · exact hinsert a rfl
      · -- what the erased roster has of the identity of the new value the roster had, too
        rw [filter_insert (ha a rfl), herase i rfl]
        intro b hb hid
        exact h b (List.mem_filter.1 hb).1 (.inr (by simp [hid]))

end Filter

end Roster
end TypeCatalog
