import TypeCatalog.Outline

/-!
The catalog of a project: every type that source files declare or references export. Source
declarations come before exports, and of two assemblies that export one key the one that is
referenced first counts. Main statement: a key has an outline exactly if it is visible.
-/

namespace TypeCatalog

structure Catalog where
  index : DeclIndex
  references : List Assembly
  options : Options

namespace Catalog

def ofProject (p : Project) : Catalog where
  index := .ofFiles p.files.toList
  references := p.references.toList
  options := p.options

/-- The first export of a key, and the assembly that exports it. -/
def findExport? (c : Catalog) (k : TypeKey) : Option (AssemblyName × Declaration) :=
  c.references.findSome? fun a => (a.find? k).map (a.name, ·)

/-- What is declared under a key; `none` if nothing is. -/
def outline? (c : Catalog) (k : TypeKey) : Option Outline :=
  match c.index.declarations k with
  | first :: rest => some (.ofParts c.options k first rest)
  | [] => (c.findExport? k).map fun (name, d) => .ofExport c.options k name d

def links (c : Catalog) (k : TypeKey) : List BaseLink :=
  ((c.outline? k).map Outline.links).getD []

/-- What is wrong with the declarations of a key, whatever its links are bound to. -/
def reports (c : Catalog) (k : TypeKey) : List Report :=
  ((c.outline? k).map Outline.reports).getD []

/-- All visible keys, each once: source keys by first declaration, then exports by reference. -/
def visibleKeys (c : Catalog) : List TypeKey :=
  distinct (c.index.keys ++ c.references.flatMap fun a => a.exports.map Declaration.key)

theorem outline?_eq_none_iff (c : Catalog) (k : TypeKey) :
    c.outline? k = none ↔ k ∉ c.visibleKeys := by
  have hk := c.index.mem_keys_iff k
  unfold outline?
  split
  · rename_i h
    simp_all [visibleKeys]
  · rename_i h
    simp_all [visibleKeys, findExport?, Assembly.find?]

theorem nodup_visibleKeys (c : Catalog) : c.visibleKeys.Nodup :=
  nodup_distinct _

theorem mem_visibleKeys_iff (c : Catalog) (k : TypeKey) :
    k ∈ c.visibleKeys ↔ (c.outline? k).isSome := by
  have h := c.outline?_eq_none_iff k
  cases ho : c.outline? k <;> simp_all

end Catalog
end TypeCatalog
