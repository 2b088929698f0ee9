import TypeCatalog.TypeKey

/-!
Declarations. What a source file or an assembly says about a type before any name in it is looked
up: base types, return types and parameters are keys.
-/

namespace TypeCatalog

inductive TypeKind where
  | classType | structType | interfaceType | enumType | delegateType
  deriving DecidableEq, Repr

namespace TypeKind

def label : TypeKind → String
  | classType => "class"
  | structType => "struct"
  | interfaceType => "interface"
  | enumType => "enum"
  | delegateType => "delegate"

/-- The type that a declaration of this kind inherits from if it names no base. -/
def root? : TypeKind → Option TypeKey
  | classType => some ⟨"System", "Object", 0⟩
  | structType => some ⟨"System", "ValueType", 0⟩
  | interfaceType => none
  | enumType => some ⟨"System", "Enum", 0⟩
  | delegateType => some ⟨"System", "MulticastDelegate", 0⟩

end TypeKind

inductive MemberKind where
  | field | property | method | event | constructor | enumValue
  deriving DecidableEq, Repr

def MemberKind.label : MemberKind → String
  | field => "field"
  | property => "property"
  | method => "method"
  | event => "event"
  | constructor => "constructor"
  | enumValue => "enum value"

structure Member where
  kind : MemberKind
  name : String
  returnType : Option TypeKey
  parameters : List TypeKey
  isStatic : Bool
  deriving DecidableEq, Repr

/-- One declaration of a type; a partial type may have several. -/
structure Declaration where
  ns : String
  name : String
  kind : TypeKind
  typeParameters : List String
  bases : List TypeKey
  members : List Member
  isPartial : Bool
  deriving DecidableEq, Repr

def Declaration.key (d : Declaration) : TypeKey :=
  ⟨d.ns, d.name, d.typeParameters.length⟩

/-- The declarations of one source file. The identity, not the content, tells files apart. -/
structure SourceFile where
  identity : String
  declarations : List Declaration
  deriving DecidableEq, Repr

end TypeCatalog
