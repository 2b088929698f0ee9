import Mathlib.Logic.Relation
import TypeCatalog.Catalog

/-!
# The graph of declared links

A key has a link to each base type that its merged declarations name, and to the root of its kind
if they name none and the option is on. No key has two links to one base type, and a key that
nothing declares has no link at all.
-/

namespace TypeCatalog

namespace Outline

theorem nodup_explicitLinks (bases : List (Option String × TypeKey)) :
    ((explicitLinks bases).map BaseLink.key).Nodup :=
  nodup_map_firstBy _ _

theorem nodup_withRoot (options : Options) (key : TypeKey) (kind : TypeKind)
    (file : Option String) {links : List BaseLink} (h : (links.map BaseLink.key).Nodup) :
    ((withRoot options key kind file links).map BaseLink.key).Nodup := by
  cases links with
  | cons link links => exact h
  | nil =>
    rw [withRoot]
    split
    · cases kind.root?.filter (· ≠ key) <;> simp
    · exact h

end Outline

namespace Catalog

/-- A declared link from one key to another. -/
def LinksTo (c : Catalog) (k base : TypeKey) : Prop :=
  base ∈ (c.links k).map BaseLink.key

/-- Zero or more declared links lead from one key to another. -/
abbrev Reaches (c : Catalog) : TypeKey → TypeKey → Prop :=
  Relation.ReflTransGen c.LinksTo

theorem nodup_links (c : Catalog) (k : TypeKey) : ((c.links k).map BaseLink.key).Nodup := by
  unfold links outline?
  split
  · exact Outline.nodup_withRoot _ _ _ _ (Outline.nodup_explicitLinks _)
  · cases c.findExport? k with
    | none => exact List.nodup_nil
    | some e => exact Outline.nodup_withRoot _ _ _ _ (Outline.nodup_explicitLinks _)

theorem links_of_outline?_eq_none {c : Catalog} {k : TypeKey} (h : c.outline? k = none) :
    c.links k = [] := by
  simp [links, h]

theorem mem_visibleKeys_of_linksTo {c : Catalog} {k base : TypeKey} (h : c.LinksTo k base) :
    k ∈ c.visibleKeys := by
  rw [mem_visibleKeys_iff]
  cases ho : c.outline? k with
  | none =>
    rw [LinksTo, links_of_outline?_eq_none ho] at h
    cases h
  | some o => rfl

end Catalog
end TypeCatalog
