import TypeCatalog.Outline

/-!
Resolved types. A resolved type has a number of its own, and its base types are numbers too. A
name that stands for nothing, or that would close a cycle of inheritance, is resolved to a
placeholder, which has no kind, no parts, no bases and no members.
-/

namespace TypeCatalog

/-- The number of a resolved type: its place among all the types resolved with it. It has no bound
here; a 32-bit number agrees with it as long as there are no more than 2^32 types. -/
abbrev TypeId := Nat

inductive UnknownReason where
  /-- Nothing declares the name. -/
  | unresolved
  /-- The name closes a cycle of inheritance. -/
  | cycle
  deriving DecidableEq, Repr

/-- What a key was bound to. -/
inductive Binding where
  | unknown (reason : UnknownReason)
  | declared (definition : Definition) (bases : List TypeId)
  deriving DecidableEq, Repr

structure ResolvedType where
  id : TypeId
  key : TypeKey
  binding : Binding
  deriving DecidableEq, Repr

/-- A member together with the type it belongs to. -/
structure ResolvedMember where
  sited : SitedMember
  owner : TypeId
  deriving DecidableEq, Repr

inductive Origin where
  | source (files : List String)
  | assembly (name : AssemblyName)
  | unknown (reason : UnknownReason)
  deriving DecidableEq, Repr

namespace ResolvedType

def definition? (t : ResolvedType) : Option Definition :=
  match t.binding with
  | .unknown _ => none
  | .declared d _ => some d

def unknownReason? (t : ResolvedType) : Option UnknownReason :=
  match t.binding with
  | .unknown reason => some reason
  | .declared _ _ => none

def isUnknown (t : ResolvedType) : Bool :=
  t.unknownReason?.isSome

def kind? (t : ResolvedType) : Option TypeKind :=
  t.definition?.map Definition.kind

def origin (t : ResolvedType) : Origin :=
  match t.binding with
  | .unknown reason => .unknown reason
  | .declared d _ =>
    match d.site with
    | .source _ files => .source files
    | .assembly name => .assembly name

def assembly? (t : ResolvedType) : Option AssemblyName :=
  match t.origin with
  | .assembly name => some name
  | _ => none

/-- The merged source declarations, in merge order. -/
def parts (t : ResolvedType) : List DeclId :=
  match t.definition?.map Definition.site with
  | some (.source parts _) => parts
  | _ => []

/-- The direct base types, in the order of their links. -/
def bases (t : ResolvedType) : List TypeId :=
  match t.binding with
  | .unknown _ => []
  | .declared _ bases => bases

def members (t : ResolvedType) : List ResolvedMember :=
  match t.definition? with
  | some d => d.members.map (⟨·, t.id⟩)
  | none => []

def membersNamed (t : ResolvedType) (name : String) : List ResolvedMember :=
  t.members.filter (·.sited.member.name = name)

@[simp] theorem bases_unknown (id : TypeId) (key : TypeKey) (reason : UnknownReason) :
    bases ⟨id, key, .unknown reason⟩ = [] := rfl

@[simp] theorem bases_declared (id : TypeId) (key : TypeKey) (d : Definition) (bs : List TypeId) :
    bases ⟨id, key, .declared d bs⟩ = bs := rfl

theorem isUnknown_iff {t : ResolvedType} : t.isUnknown ↔ ∃ reason, t.binding = .unknown reason := by
  obtain ⟨id, key, binding⟩ := t
  cases binding <;> simp [isUnknown, unknownReason?]

theorem owner_of_mem_members {t : ResolvedType} {m : ResolvedMember} (h : m ∈ t.members) :
    m.owner = t.id := by
  unfold members at h
  split at h
  · obtain ⟨_, _, rfl⟩ := List.mem_map.1 h
    rfl
  · cases h

end ResolvedType
end TypeCatalog
