set_option autoImplicit false

namespace ContentModels

inductive TypeRef where
  | string
  | double
  | dateTime
  | asset
  | bool
  | richTextNode
  | dynamic
  | link
  -- A generated type.
  | named (name : String)
  -- A member of unknown type.
  | opaqueObject
  | list (item : TypeRef)
  deriving Repr, DecidableEq

namespace TypeRef

def isList : TypeRef → Bool
  | .list _ => true
  | _ => false

def element : TypeRef → TypeRef
  | .list item => item.element
  | type => type

end TypeRef

end ContentModels
