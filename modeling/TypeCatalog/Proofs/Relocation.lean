import TypeCatalog.Compilation

/-!
# Declarations at other places

The place of a declaration shows in the parts of a type and nowhere else. If all declarations of a
key move to other places, its outline has the same kind, files, members, links and reports, and its
parts are the new places.
-/

namespace TypeCatalog

namespace Part

def relocate (f : DeclId → DeclId) (p : Part) : Part :=
  { p with id := f p.id }

variable (f : DeclId → DeclId) (p : Part)

@[simp] theorem id_relocate : (p.relocate f).id = f p.id := rfl
@[simp] theorem file_relocate : (p.relocate f).file = p.file := rfl
@[simp] theorem declaration_relocate : (p.relocate f).declaration = p.declaration := rfl
@[simp] theorem key_relocate : (p.relocate f).key = p.key := rfl

end Part

def Site.relocate (f : DeclId → DeclId) : Site → Site
  | .source parts files => .source (parts.map f) files
  | .assembly name => .assembly name

def Definition.relocate (f : DeclId → DeclId) (d : Definition) : Definition :=
  { d with site := d.site.relocate f }

def Outline.relocate (f : DeclId → DeclId) (o : Outline) : Outline :=
  { o with definition := o.definition.relocate f }

def Binding.relocate (f : DeclId → DeclId) : Binding → Binding
  | .unknown reason => .unknown reason
  | .declared d bases => .declared (d.relocate f) bases

namespace ResolvedType

def relocate (f : DeclId → DeclId) (t : ResolvedType) : ResolvedType :=
  { t with binding := t.binding.relocate f }

variable (f : DeclId → DeclId) (t : ResolvedType)

@[simp] theorem id_relocate : (t.relocate f).id = t.id := rfl
@[simp] theorem key_relocate : (t.relocate f).key = t.key := rfl

@[simp] theorem bases_relocate : (t.relocate f).bases = t.bases := by
  obtain ⟨id, k, binding⟩ := t
  cases binding <;> rfl

@[simp] theorem unknownReason?_relocate : (t.relocate f).unknownReason? = t.unknownReason? := by
  obtain ⟨id, k, binding⟩ := t
  cases binding <;> rfl

end ResolvedType

namespace Outline

variable (f : DeclId → DeclId) (options : Options) (k : TypeKey) (first : Part) (rest : List Part)

theorem keptParts_relocate : keptParts options (first.relocate f) (rest.map (Part.relocate f)) =
    (keptParts options first rest).map (Part.relocate f) := by
  have hagree : (fun part => agree (first.relocate f) part) ∘ Part.relocate f = agree first := rfl
  rw [keptParts, keptParts, List.map_cons, List.filter_map, hagree]
  split <;> rfl

theorem duplicates_relocate : duplicates k (first.relocate f) (rest.map (Part.relocate f)) =
    duplicates k first rest := by
  have hagree : (fun part => !agree (first.relocate f) part) ∘ Part.relocate f =
      (!agree first ·) := rfl
  rw [duplicates, List.filter_map, hagree, List.map_map]
  rfl

theorem kindConflicts_relocate (kept : List Part) :
    kindConflicts k (first.relocate f) (kept.map (Part.relocate f)) =
      kindConflicts k first kept := by
  have hkind : (fun part : Part => decide (part.declaration.kind ≠
      (first.relocate f).declaration.kind)) ∘ Part.relocate f =
        fun part => decide (part.declaration.kind ≠ first.declaration.kind) := rfl
  rw [kindConflicts, List.filter_map, hkind, List.map_map]
  rfl

/-- The outline of parts that have moved says the same, but for their places. -/
theorem ofParts_relocate : ofParts options k (first.relocate f) (rest.map (Part.relocate f)) =
    (ofParts options k first rest).relocate f := by
  simp [ofParts, keptParts_relocate, duplicates_relocate, kindConflicts_relocate, relocate,
    Definition.relocate, Site.relocate, List.flatMap_map, Function.comp_def]

end Outline
end TypeCatalog
