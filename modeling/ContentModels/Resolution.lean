import ContentModels.Date
import ContentModels.Diagnostic
import ContentModels.Naming
import ContentModels.Registry
import ContentModels.TypeRef

set_option autoImplicit false

namespace ContentModels

open Naming

inductive ReferencePolicy where
  | asDeclared
  | alwaysList
  deriving Repr, DecidableEq

namespace ReferencePolicy

-- From this schema version on every reference is delivered as a list.
def listsSince : Date := ⟨2019, 4, 4⟩

def ofVersion : Option Date → ReferencePolicy
  | some version => if Date.isFrom listsSince version then .alwaysList else .asDeclared
  | none => .asDeclared

end ReferencePolicy

structure Resolution where
  type : TypeRef
  diagnostic : Option Diagnostic
  deriving Repr, DecidableEq

structure Resolver where
  registry : Registry
  prefixes : Prefixes
  policy : ReferencePolicy

namespace Resolver

def subject (owner : String) (field : Field) : String := owner ++ "." ++ field.uid

def untyped (kind : DiagnosticKind) (owner : String) (field : Field) (message : String) :
    Resolution :=
  ⟨.opaqueObject, some ⟨kind, subject owner field, message⟩⟩

def typed (type : TypeRef) : Resolution := ⟨type, none⟩

-- Whether a field that may refer to several content types states only one of them.
def isTruncated (field : Field) : Bool :=
  field.kind = .reference && field.metadata.refMultipleTargets &&
    match field.reference with
    | some (.single _) => true
    | _ => false

def definite? (field : Field) (target : ReferenceTarget) : Option String :=
  if isTruncated field then none else target.sole?

def reference (r : Resolver) (field : Field) (owner : String) : Resolution :=
  match field.reference with
  | none => untyped .unresolvedReference owner field "no reference target declared"
  | some target =>
    match definite? field target with
    | none =>
      untyped .ambiguousReference owner field
        ("references [" ++ ", ".intercalate target.uids ++ "], using an untyped member")
    | some uid =>
      match r.registry.lookup uid with
      | some definition => typed (.named (definitionName definition.title definition.uid))
      | none => untyped .unresolvedReference owner field ("'" ++ uid ++ "' is not registered")

def element (r : Resolver) (field : Field) (owner : String) : Resolution :=
  match field.kind with
  | .text => typed .string
  | .number => typed .double
  | .date => typed .dateTime
  | .file => typed .asset
  | .boolean => typed .bool
  | .json => typed (if field.metadata.jsonRichText then .richTextNode else .dynamic)
  | .link => typed .link
  | .reference => r.reference field owner
  | .globalField => r.reference field owner
  | .blocks => typed (.named (nestedTypeName r.prefixes .blocks owner field))
  | .group => typed (.named (nestedTypeName r.prefixes .group owner field))
  | .other kind =>
    untyped .unknownDataKind owner field
      ("data type '" ++ kind ++ "' is not supported, using an untyped member")

def isSequence (r : Resolver) (field : Field) : Bool :=
  field.isMultiple || field.metadata.refMultiple ||
    (field.kind = .reference && r.policy = .alwaysList)

def resolve (r : Resolver) (field : Field) (owner : String) : Resolution :=
  let found := r.element field owner
  if r.isSequence field then { found with type := .list found.type } else found

end Resolver

end ContentModels
