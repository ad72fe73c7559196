import ContentModels.Path
import ContentModels.TypeRef

set_option autoImplicit false

namespace ContentModels

def embeddedObject : String := "IEmbeddedObject"

def entryEmbeddable : String := "IEntryEmbedable"

def entryMembers : List String := ["ContentType", "Uid", "ContentTypeUid"]

def blockTypeMember : String := "BlockType"

def markdownStoreSuffix : String := "Store"

inductive UnitKind where
  | model
  | wrapper
  | tagEnum
  | converter
  | link
  | helper
  deriving Repr, DecidableEq

def UnitKind.label : UnitKind → String
  | .model => "model"
  | .wrapper => "wrapper"
  | .tagEnum => "enum"
  | .converter => "converter"
  | .link => "link"
  | .helper => "helper"

structure VariantTag where
  uid : String
  member : String
  variantType : String
  deriving Repr, DecidableEq

inductive Dispatch where
  -- By the key that is present in the object.
  | keyPresence (wrapper tagEnum : String) (arms : List VariantTag)
  | contentTypeUid (arms : List (String × String))
  deriving Repr, DecidableEq

inductive HelperKind where
  | helper
  | stringExtension
  | displayNameAttribute
  deriving Repr, DecidableEq

inductive UnitBody where
  | model (contentTypeUid : Option String)
  | wrapper
  | tagEnum (tags : List VariantTag)
  | converter (dispatch : Dispatch)
  | link
  | helper (kind : HelperKind)
  deriving Repr, DecidableEq

def UnitBody.kind : UnitBody → UnitKind
  | .model _ => .model
  | .wrapper => .wrapper
  | .tagEnum _ => .tagEnum
  | .converter _ => .converter
  | .link => .link
  | .helper _ => .helper

inductive Accessor where
  | plain
  -- The text is kept as it is and converted to HTML when it is read.
  | markdown
  deriving Repr, DecidableEq

def Accessor.companions : Accessor → List String
  | .plain => []
  | .markdown => [markdownStoreSuffix]

structure Member where
  name : String
  wire : String
  type : TypeRef
  accessor : Accessor := .plain
  deriving Repr, DecidableEq

def lowerCase (s : String) : List Char := s.toList.map Char.toLower

def Member.needsWireName (m : Member) : Bool := lowerCase m.wire ≠ lowerCase m.name

structure GeneratedUnit where
  name : String
  namespacePath : List String
  directoryPath : List String
  body : UnitBody
  members : List Member := []
  -- The namespaces it uses, in order and without repetition.
  imports : List String := []
  bases : List String := []
  deriving Repr, DecidableEq

def insertImport (name : String) : List String → List String
  | [] => [name]
  | first :: rest =>
    if name < first then name :: first :: rest
    else if name = first then first :: rest
    else first :: insertImport name rest

namespace GeneratedUnit

def kind (u : GeneratedUnit) : UnitKind := u.body.kind

def namespaceName (u : GeneratedUnit) : String := ".".intercalate u.namespacePath

def qualifiedName (u : GeneratedUnit) : String :=
  if u.namespacePath.isEmpty then u.name else u.namespaceName ++ "." ++ u.name

def relativePath (u : GeneratedUnit) (extension : String) : String :=
  Path.join (Path.ofSegments u.directoryPath) (u.name ++ "." ++ extension)

def member? (u : GeneratedUnit) (name : String) : Option Member :=
  u.members.find? (·.name = name)

end GeneratedUnit

end ContentModels
