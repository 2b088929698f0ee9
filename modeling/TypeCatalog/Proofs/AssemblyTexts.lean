import Mathlib.Data.List.Nodup
import TypeCatalog.Proofs.Content
import TypeCatalog.Proofs.PrintedNames

/-!
# Texts of assemblies

The text of an assembly is its name and behind it the four numbers of its version. A name may hold
anything, also what looks like a version, so the text is read from its end: no number has a dot or
an equals sign in it, the last three dots and the equals sign before them tell the numbers, and what
stands before is the name. A snapshot tells its references apart by name and version, so it tells
them apart by their texts, too: of all its references the one that a type was taken from, and no
other, has the text that the type shows as its origin.
-/

namespace TypeCatalog

namespace Version

variable {v w : Version}

/-- An equals sign tells the version behind it from what stands before. -/
theorem append_display_inj {front front' : String} :
    front ++ "=" ++ v.display = front' ++ "=" ++ w.display ↔ front = front' ∧ v = w := by
  have hdigits : ∀ n : UInt16, toString n = toString n.toNat := fun _ => rfl
  have hequals : "=" = String.singleton '=' := rfl
  have hdot : "." = String.singleton '.' := rfl
  simp only [display, hdigits, ← String.append_assoc]
  rw [hequals, hdot, append_number_inj (by decide), append_number_inj (by decide),
    append_number_inj (by decide), append_number_inj (by decide)]
  cases v
  cases w
  simp [UInt16.toNat_inj, and_assoc]

theorem display_inj : v.display = w.display ↔ v = w := by
  constructor
  · intro h
    exact (append_display_inj.1 (congrArg ("" ++ "=" ++ ·) h)).2
  · exact congrArg display

end Version

namespace AssemblyName

variable {a b : AssemblyName}

theorem display_inj : a.display = b.display ↔ a.name = b.name ∧ a.version = b.version := by
  have hmark : ", Version=" = ", Version" ++ "=" := rfl
  rw [display, display, hmark, ← String.append_assoc, ← String.append_assoc,
    Version.append_display_inj, String.append_left_inj]

theorem display_injective : Function.Injective display := by
  intro a b h
  obtain ⟨hname, hversion⟩ := display_inj.1 h
  cases a
  cases b
  rw [mk.injEq]
  exact ⟨hname, hversion⟩

end AssemblyName

namespace Project

variable {p : Project}

/-- References of one text are one reference. -/
theorem eq_of_display_eq {a b : Assembly} (ha : a ∈ p.references.toList)
    (hb : b ∈ p.references.toList) (h : a.name.display = b.name.display) : a = b :=
  List.inj_on_of_nodup_map p.references.distinct ha hb (AssemblyName.display_injective h)

theorem nodup_map_display (p : Project) :
    (p.references.identities.map AssemblyName.display).Nodup :=
  p.references.distinct.map AssemblyName.display_injective

theorem exists_exporter?_of_origin_eq {k : TypeKey} {name : AssemblyName}
    (h : (p.content k).origin = .assembly name) : ∃ a, p.exporter? k = some a ∧ a.name = name := by
  unfold content at h
  cases hp : p.partsOf k with
  | cons first rest => simp [hp] at h
  | nil =>
    cases hx : p.exporter? k with
    | none => simp [hp, hx] at h
    | some a =>
      cases hd : a.find? k with
      | none => simp [hp, hx, hd] at h
      | some d => exact ⟨a, rfl, by simpa [hp, hx, hd] using h⟩

/-- The text of the assembly that declares a key is that of its exporter and of no other
reference. -/
theorem exists_exporter?_of_display {k : TypeKey} {name : AssemblyName}
    (h : (p.content k).origin = .assembly name) : ∃ a, p.exporter? k = some a ∧
      ∀ b ∈ p.references.toList, b.name.display = name.display ↔ b = a := by
  obtain ⟨a, ha, rfl⟩ := exists_exporter?_of_origin_eq h
  have hmem : a ∈ p.references.toList := List.mem_of_find?_eq_some ha
  refine ⟨a, ha, fun b hb => ⟨eq_of_display_eq hb hmem, ?_⟩⟩
  rintro rfl
  rfl

end Project

/-- A type that is taken from an assembly is what the project declares under its key. -/
theorem Store.Consistent.origin_content_of_origin {p : Project} {s : Store}
    {o : Std.TreeSet TypeKey} (h : s.Consistent (.ofProject p) o) {t : ResolvedType}
    (ht : t ∈ s.arena.toList) {name : AssemblyName} (hname : t.origin = .assembly name) :
    (p.content t.key).origin = .assembly name := by
  have hne : t.binding ≠ .unknown .cycle := by
    intro hcycle
    rw [ResolvedType.origin, hcycle] at hname
    cases hname
  rw [← (h.depicts (h.find?_of_mem_arena ht hne)).2.origin, hname]

/-- The text of a version tells its four numbers, and the text of an assembly tells its name and its
version, whatever the name is. So no two references of a snapshot have one text, and in every
history the text of the assembly that a type is taken from is that of the reference which exports
the type, and of no other. -/
theorem assembly_texts_identify :
    (∀ v w : Version, v.display = w.display ↔ v = w) ∧
    (∀ a b : AssemblyName, a.display = b.display ↔ a.name = b.name ∧ a.version = b.version) ∧
    ∀ s : Snapshot, (s.project.references.identities.map AssemblyName.display).Nodup ∧
      ∀ qs, ∀ t ∈ ((Compilation.create s).after qs).store.arena.toList,
        ∀ name, t.origin = .assembly name → ∃ a, s.project.exporter? t.key = some a ∧
          ∀ b ∈ s.project.references.toList, b.name.display = name.display ↔ b = a := by
  refine ⟨fun _ _ => Version.display_inj, fun _ _ => AssemblyName.display_inj, fun s =>
    ⟨s.project.nodup_map_display, fun qs t ht name hname => ?_⟩⟩
  have hconsistent := (Compilation.reached_after s qs).consistent
  exact Project.exists_exporter?_of_display (hconsistent.origin_content_of_origin ht hname)

/-- Three references, two of one name in two versions, and one whose name is the text of another. -/
def Snapshot.lookalikes : Snapshot :=
  initial.update (.addReferences [
    ⟨⟨"Lib", ⟨1, 0, 0, 0⟩⟩, [⟨"", "A", .classType, [], [], [], false⟩]⟩,
    ⟨⟨"Lib, Version=1.0.0.0", ⟨1, 0, 0, 0⟩⟩, [⟨"", "B", .classType, [], [], [], false⟩]⟩,
    ⟨⟨"Lib", ⟨1, 0, 0, 10⟩⟩, [⟨"", "B", .structType, [], [], [], false⟩]⟩])

/-- Of the three, the second one alone has the text that the type shows. -/
theorem assembly_texts_identify_lookalikes :
    let s := Snapshot.lookalikes
    let t : ResolvedType := ⟨0, ⟨"", "B", 0⟩, .declared
      ⟨.classType, .assembly ⟨"Lib, Version=1.0.0.0", ⟨1, 0, 0, 0⟩⟩, []⟩ []⟩
    (AssemblyName.display ⟨"Lib, Version=1.0.0.0", ⟨1, 0, 0, 0⟩⟩ ≠
      AssemblyName.display ⟨"Lib", ⟨1, 0, 0, 0⟩⟩) ∧
    (s.project.references.identities.map AssemblyName.display).Nodup ∧
    t ∈ ((Compilation.create s).after [.resolve ⟨"", "B", 0⟩]).store.arena.toList ∧
    ∃ a, s.project.exporter? ⟨"", "B", 0⟩ = some a ∧ ∀ b ∈ s.project.references.toList,
      b.name.display = "Lib, Version=1.0.0.0, Version=1.0.0.0" ↔ b = a := by
  intro s t
  obtain ⟨-, hdisplay, hreferences⟩ := assembly_texts_identify
  obtain ⟨hnodup, horigin⟩ := hreferences s
  have ht : ((Compilation.create s).after [.resolve ⟨"", "B", 0⟩]).store.get? 0 = some t := by
    decide +kernel
  have hmem := Store.mem_arena_iff.2 ⟨0, ht⟩
  exact ⟨mt (hdisplay _ _).1 (by decide), hnodup, hmem,
    horigin [.resolve ⟨"", "B", 0⟩] t hmem _ rfl⟩

end TypeCatalog
