import ContentModels.Json.Value
import ContentModels.Text.Blank

set_option autoImplicit false

namespace ContentModels

inductive Origin where
  | contentType
  | globalField
  deriving Repr, DecidableEq, Inhabited

inductive DataKind where
  | text
  | number
  | date
  | file
  | boolean
  | json
  | link
  | reference
  | globalField
  | blocks
  | group
  | other (name : String)
  deriving Repr, DecidableEq, Inhabited

namespace DataKind

def wire : DataKind → String
  | .text => "text"
  | .number => "number"
  | .date => "isodate"
  | .file => "file"
  | .boolean => "boolean"
  | .json => "json"
  | .link => "link"
  | .reference => "reference"
  | .globalField => "global_field"
  | .blocks => "blocks"
  | .group => "group"
  | .other name => name

def ofWire : String → DataKind
  | "text" => .text
  | "number" => .number
  | "isodate" => .date
  | "file" => .file
  | "boolean" => .boolean
  | "json" => .json
  | "link" => .link
  | "reference" => .reference
  | "global_field" => .globalField
  | "blocks" => .blocks
  | "group" => .group
  | name => .other name

@[simp] theorem wire_ofWire (name : String) : (ofWire name).wire = name := by
  unfold ofWire
  split <;> rfl

def isNested : DataKind → Bool
  | .blocks => true
  | .group => true
  | _ => false

end DataKind

inductive ReferenceTarget where
  | single (uid : String)
  | many (uids : List String)
  deriving Repr, DecidableEq, Inhabited

namespace ReferenceTarget

def uids : ReferenceTarget → List String
  | .single uid => [uid]
  | .many uids => uids

def sole? : ReferenceTarget → Option String
  | .single uid => some uid
  | .many [uid] => some uid
  | .many _ => none

end ReferenceTarget

structure Metadata where
  refMultiple : Bool := false
  refMultipleTargets : Bool := false
  richText : Bool := false
  markdown : Bool := false
  isExtension : Bool := false
  jsonRichText : Bool := false
  defaultValue : Option Json.Value := none
  deriving Inhabited

mutual

structure Definition where
  uid : String
  title : String
  fields : List Field
  -- A block variant may take its fields from a registered global field.
  referenceTo : Option String
  origin : Origin

structure Field where
  uid : String
  displayName : String
  kind : DataKind
  isMultiple : Bool
  reference : Option ReferenceTarget
  metadata : Metadata
  nested : List Field
  variants : List Definition

end

namespace Definition

def new (uid title : String) (fields : List Field) : Definition :=
  ⟨uid, title, fields, none, .contentType⟩

def withOrigin (d : Definition) (origin : Origin) : Definition := { d with origin := origin }

def referencing (d : Definition) (globalField : String) : Definition :=
  { d with referenceTo := some globalField }

end Definition

namespace Field

def new (uid : String) (kind : DataKind) : Field := ⟨uid, uid, kind, false, none, {}, [], []⟩

def named (f : Field) (displayName : String) : Field := { f with displayName := displayName }

def multiple (f : Field) : Field := { f with isMultiple := true }

def withMetadata (f : Field) (metadata : Metadata) : Field := { f with metadata := metadata }

def withReference (f : Field) (target : ReferenceTarget) : Field :=
  { f with reference := some target }

def withSchema (f : Field) (fields : List Field) : Field := { f with nested := fields }

def withBlocks (f : Field) (variants : List Definition) : Field := { f with variants := variants }

def label (f : Field) : String := if Text.isBlankText f.displayName then f.uid else f.displayName

def isMarkdown (f : Field) : Bool := f.kind = .text && f.metadata.markdown

end Field

mutual

-- Whether a text field with embedded entries is reachable through the schemas written in the field
-- itself.
def Field.embedsEntries : Field → Bool
  | ⟨_, _, kind, _, reference, _, nested, variants⟩ =>
    match kind with
    | .text => reference.isSome
    | .blocks => variantsEmbedEntries variants
    | .group => fieldsEmbedEntries nested
    | .globalField => fieldsEmbedEntries nested
    | _ => false

def fieldsEmbedEntries : List Field → Bool
  | [] => false
  | field :: rest => field.embedsEntries || fieldsEmbedEntries rest

def Definition.embedsEntries : Definition → Bool
  | ⟨_, _, fields, _, _⟩ => fieldsEmbedEntries fields

def variantsEmbedEntries : List Definition → Bool
  | [] => false
  | variant :: rest => variant.embedsEntries || variantsEmbedEntries rest

end

end ContentModels
