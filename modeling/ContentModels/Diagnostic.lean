set_option autoImplicit false

namespace ContentModels

inductive DiagnosticKind where
  | unknownDataKind
  | unresolvedReference
  | ambiguousReference
  | nameCollision
  | duplicateVariant
  | emptyName
  deriving Repr, DecidableEq

namespace DiagnosticKind

-- An ambiguous reference is how a stack may be meant, so it is no warning.
def isWarning : DiagnosticKind → Bool
  | .ambiguousReference => false
  | _ => true

def label : DiagnosticKind → String
  | .unknownDataKind => "unknown data type"
  | .unresolvedReference => "unresolved reference"
  | .ambiguousReference => "ambiguous reference"
  | .nameCollision => "name collision"
  | .duplicateVariant => "duplicate block variant"
  | .emptyName => "unnamed type"

end DiagnosticKind

structure Diagnostic where
  kind : DiagnosticKind
  subject : String
  message : String
  deriving Repr, DecidableEq

def Diagnostic.display (d : Diagnostic) : String :=
  d.kind.label ++ " in " ++ d.subject ++ ": " ++ d.message

end ContentModels
