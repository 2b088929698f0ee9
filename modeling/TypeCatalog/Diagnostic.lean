import TypeCatalog.Declaration

/-!
Diagnostics. A diagnostic is the text of a recoverable condition of a type, with a code and the
file it belongs to. A log keeps diagnostics in the order in which they were added.
-/

namespace TypeCatalog

inductive Severity where
  | error | warning | info | hint
  deriving DecidableEq, Repr

/-- The number that editors use for a severity. -/
def Severity.number : Severity → Nat
  | error => 1
  | warning => 2
  | info => 3
  | hint => 4

/-- A remark about another place that belongs to a diagnostic. -/
structure RelatedNote where
  file : Option String
  message : String
  deriving DecidableEq, Repr

structure Diagnostic where
  /-- The file of the declaration; an exported type has none. -/
  file : Option String
  subject : TypeKey
  severity : Severity
  code : Option String
  message : String
  related : List RelatedNote
  deriving DecidableEq, Repr

namespace Diagnostic

variable (file : Option String) (subject : TypeKey)

def unresolvedBase (base : TypeKey) : Diagnostic where
  file := file
  subject := subject
  severity := .warning
  code := some "W0101"
  message := "base type '" ++ base.reflectionName ++ "' of '" ++ subject.reflectionName ++
    "' could not be resolved"
  related := []

def circularBase (base : TypeKey) : Diagnostic where
  file := file
  subject := subject
  severity := .warning
  code := some "W0102"
  message := "circular base type dependency: '" ++ subject.reflectionName ++ "' inherits from '" ++
    base.reflectionName ++ "'"
  related := []

def duplicateDeclaration (first : Option String) : Diagnostic where
  file := file
  subject := subject
  severity := .warning
  code := some "W0103"
  message := "duplicate declaration: '" ++ subject.reflectionName ++
    "' is declared without the partial modifier"
  related := [⟨first, "first declaration of '" ++ subject.reflectionName ++ "'"⟩]

def conflictingKinds (expected found : String) : Diagnostic where
  file := file
  subject := subject
  severity := .warning
  code := some "W0104"
  message := "partial declaration of '" ++ subject.reflectionName ++ "' is a " ++ found ++
    ", expected " ++ expected
  related := []

end Diagnostic

structure DiagnosticLog where
  entries : Array Diagnostic := #[]

namespace DiagnosticLog

def add (log : DiagnosticLog) (d : Diagnostic) : DiagnosticLog :=
  ⟨log.entries.push d⟩

def size (log : DiagnosticLog) : Nat :=
  log.entries.size

def forFile (log : DiagnosticLog) (file : String) : List Diagnostic :=
  log.entries.toList.filter (·.file = some file)

def withCode (log : DiagnosticLog) (code : String) : List Diagnostic :=
  log.entries.toList.filter (·.code = some code)

def warnings (log : DiagnosticLog) : Nat :=
  log.entries.toList.countP (·.severity = .warning)

end DiagnosticLog

/-- What can be wrong with a type that is resolved all the same. -/
inductive Condition where
  /-- Nothing declares the base type. -/
  | unresolvedBase (base : TypeKey)
  /-- The base type inherits from the type that names it. -/
  | circularBase (base : TypeKey)
  /-- A later declaration is not a partial one, or the first is not. -/
  | duplicateDeclaration (first : Option String)
  /-- A merged declaration is of another kind than the first one. -/
  | conflictingKinds (expected found : TypeKind)
  deriving DecidableEq, Repr

/-- A condition of a type, with the file of the declaration that brought it about. -/
structure Report where
  file : Option String
  subject : TypeKey
  condition : Condition
  deriving DecidableEq, Repr

def Report.diagnostic (r : Report) : Diagnostic :=
  match r.condition with
  | .unresolvedBase base => .unresolvedBase r.file r.subject base
  | .circularBase base => .circularBase r.file r.subject base
  | .duplicateDeclaration first => .duplicateDeclaration r.file r.subject first
  | .conflictingKinds expected found =>
    .conflictingKinds r.file r.subject expected.label found.label

end TypeCatalog
