import TypeCatalog.Compilation
import TypeCatalog.Text.Quoted

/-!
Inspection. The texts that show a value to a developer: its type, and the fields that tell it from
others. They are not read back.
-/

namespace TypeCatalog

namespace Inspection

def list (items : List String) : String :=
  "[" ++ ", ".intercalate items ++ "]"

/-- A value with named fields. -/
def record (type : String) (fields : List (String × String)) : String :=
  type ++ " \x7b " ++ ", ".intercalate (fields.map fun (name, text) => name ++ ": " ++ text) ++
    " \x7d"

/-- A value made of one other value. -/
def tagged (type text : String) : String :=
  type ++ "(" ++ text ++ ")"

def fileId (n : Nat) : String :=
  tagged "FileId" (toString n)

/-- The short form of a file number. -/
def fileNumber (n : Nat) : String :=
  "file#" ++ toString n

def localDeclId (n : Nat) : String :=
  tagged "LocalDeclId" (toString n)

def declId (d : DeclId) : String :=
  tagged "DeclId" (fileId d.file ++ ":" ++ toString d.index)

def typeId (n : TypeId) : String :=
  tagged "TypeId" (toString n)

def typeKey (k : TypeKey) : String :=
  tagged "TypeKey" k.reflectionName

def version (v : Version) : String :=
  record "Version" [("major", toString v.major), ("minor", toString v.minor),
    ("build", toString v.build), ("revision", toString v.revision)]

def assemblyName (a : AssemblyName) : String :=
  record "AssemblyName" [("name", Quoted.quote a.name), ("version", version a.version)]

def unknownReason : UnknownReason → String
  | .unresolved => "Unresolved"
  | .cycle => "Cycle"

def origin : Origin → String
  | .source files => record "Source" [("files", list (files.map Quoted.quote))]
  | .assembly name => tagged "Assembly" (assemblyName name)
  | .unknown reason => tagged "Unknown" (unknownReason reason)

def resolvedType (t : ResolvedType) : String :=
  record "ResolvedTypeDefinition" [("id", typeId t.id), ("key", typeKey t.key),
    ("origin", origin t.origin), ("base_types", list (t.bases.map typeId)),
    ("members", toString t.members.length)]

def compilation (c : Compilation) : String :=
  record "Compilation" [("version", toString c.version),
    ("files", toString c.snapshot.project.files.size),
    ("assemblies", toString c.catalog.references.length)]

end Inspection
end TypeCatalog
