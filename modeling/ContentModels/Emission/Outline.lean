import ContentModels.Emission.Ledger
import ContentModels.Naming.MemberNames
import ContentModels.Resolution

set_option autoImplicit false

namespace ContentModels.Emission

open Naming

structure Options where
  namespaceName : String := "ContentstackModels"
  -- The directory of the models, which is also the first segment below the namespace.
  directory : String := "Models"
  prefixes : Prefixes := {}
  policy : ReferencePolicy := .asDeclared
  supportUnits : Bool := true
  deriving Repr, DecidableEq

abbrev Scope := List String

structure Context where
  registry : Registry
  options : Options

namespace Context

def resolver (c : Context) : Resolver := ⟨c.registry, c.options.prefixes, c.options.policy⟩

def rootScope (c : Context) : Scope := [c.options.directory]

def namespacePath (c : Context) (scope : Scope) : List String := c.options.namespaceName :: scope

def namespaceName (c : Context) (scope : Scope) : String := ".".intercalate (c.namespacePath scope)

def key (c : Context) (uid : String) (role : Role) (name : String) (scope : Scope) : Key :=
  ⟨uid, role, ".".intercalate (c.namespacePath scope ++ [name])⟩

end Context

def nestedScope (scope : Scope) (owner : String) (role : NestedRole) : Scope :=
  scope ++ [nestedDirectory owner role]

def hasFieldOf (role : NestedRole) (fields : List Field) : Bool :=
  fields.any fun field => field.kind = role.kind

def nestedNamespaces (c : Context) (scope : Scope) (owner : String) (fields : List Field) :
    List String :=
  let nested := [NestedRole.blocks, NestedRole.group].filter fun role => hasFieldOf role fields
  (nested.map fun role => c.namespaceName (nestedScope scope owner role)).foldr insertImport []

def unnamed (label name subject : String) : List Diagnostic :=
  if (typeName label).isEmpty then
    [⟨.emptyName, subject, "'" ++ label ++ "' derives no identifier, using '" ++ name ++ "'"⟩]
  else []

def renamed (uid derived name subject : String) : List Diagnostic :=
  if name = derived then []
  else
    [⟨.nameCollision, subject,
      "'" ++ uid ++ "' derives '" ++ derived ++ "' which is already used, renamed to '" ++ name ++
        "'"⟩]

def accessor (field : Field) : Accessor := if field.isMarkdown then .markdown else .plain

structure Outline where
  uid : String
  -- What the name is derived from.
  label : String
  name : String
  scope : Scope
  role : Role
  contentTypeUid : Option String := none
  -- The name that the names of types nested in the fields are derived from.
  owner : String
  fields : List Field
  imports : List String
  bases : List String
  -- Member names that no field can have.
  reserved : List String

namespace Outline

def key (c : Context) (o : Outline) : Key := c.key o.uid o.role o.name o.scope

def declare (r : Resolver) (owner unitName : String) :
    MemberNames → List Field → List Member × List Diagnostic
  | _, [] => ([], [])
  | names, field :: rest =>
    let resolution := r.resolve field owner
    let subject := unitName ++ "." ++ field.uid
    let derived := propertyName field.uid
    let access := accessor field
    let (name, names) := names.claim derived access.companions
    let found :=
      resolution.diagnostic.toList ++ unnamed field.uid derived subject ++
        renamed field.uid derived name subject
    let (members, diagnostics) := declare r owner unitName names rest
    (⟨name, field.uid, resolution.type, access⟩ :: members, found ++ diagnostics)

def declared (c : Context) (o : Outline) : List Member × List Diagnostic :=
  declare c.resolver o.owner o.name (.reserving o.reserved) o.fields

def unit (c : Context) (o : Outline) : GeneratedUnit where
  name := o.name
  namespacePath := c.namespacePath o.scope
  directoryPath := o.scope
  body := .model o.contentTypeUid
  members := (o.declared c).1
  imports := o.imports
  bases := o.bases

def ofEntry (c : Context) (d : Definition) : Outline :=
  let name := definitionName d.title d.uid
  { uid := d.uid
    label := d.title
    name := name
    scope := c.rootScope
    role := .entry
    contentTypeUid := some d.uid
    owner := name
    fields := d.fields
    imports := nestedNamespaces c c.rootScope name d.fields
    bases := (if fieldsEmbedEntries d.fields then [entryEmbeddable] else []) ++ [embeddedObject]
    reserved := name :: entryMembers }

def ofGroup (c : Context) (scope : Scope) (owner : String) (field : Field) : Outline :=
  let name := nestedTypeName c.options.prefixes .group owner field
  { uid := field.uid
    label := field.label
    name := name
    scope := scope
    role := .group
    owner := name
    fields := field.nested
    imports := nestedNamespaces c scope name field.nested
    bases := []
    reserved := [name] }

def ofVariant (c : Context) (scope : Scope) (wrapper : String) (variant : Definition) : Outline :=
  let name := variantTypeName wrapper variant.title variant.uid
  { uid := variant.uid
    label := variant.title
    name := name
    scope := scope
    role := .blockVariant
    owner := name
    fields := variant.fields
    imports := nestedNamespaces c scope name variant.fields
    bases := [wrapper]
    reserved := [name, blockTypeMember] }

def ofGlobalField (c : Context) (scope : Scope) (wrapper : String) (variant : Definition)
    (globalField : Option Definition) : Outline :=
  let outline := ofVariant c scope wrapper variant
  match globalField with
  | none => { outline with fields := [], imports := [] }
  | some g =>
    let owner := definitionName g.title g.uid
    { outline with
      owner := owner
      fields := g.fields
      imports := nestedNamespaces c c.rootScope owner g.fields }

end Outline

end ContentModels.Emission
