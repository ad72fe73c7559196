import ContentModels.Schema

set_option autoImplicit false

namespace ContentModels

open Json

def Origin.name : Origin → String
  | .contentType => "content_type"
  | .globalField => "global_field"

def Origin.document (origin : Origin) : Value := .string origin.name

def ReferenceTarget.document : ReferenceTarget → Value
  | .single uid => .string uid
  | .many uids => .array (uids.map .string)

def optionalMember (key : String) : Option Value → List (String × Value)
  | none => []
  | some value => [(key, value)]

def Metadata.document (m : Metadata) : Value :=
  .object ([
    ("ref_multiple", .boolean m.refMultiple),
    ("ref_multiple_content_types", .boolean m.refMultipleTargets),
    ("allow_rich_text", .boolean m.richText),
    ("markdown", .boolean m.markdown),
    ("extension", .boolean m.isExtension),
    ("allow_json_rte", .boolean m.jsonRichText)] ++
    optionalMember "default_value" m.defaultValue)

mutual

def Field.document : Field → Value
  | ⟨uid, displayName, kind, isMultiple, reference, metadata, nested, variants⟩ =>
    .object ([
      ("uid", .string uid),
      ("display_name", .string displayName),
      ("data_type", .string kind.wire),
      ("multiple", .boolean isMultiple)] ++
      optionalMember "reference_to" (reference.map ReferenceTarget.document) ++ [
      ("field_metadata", metadata.document),
      ("schema", .array (fieldDocuments nested)),
      ("blocks", .array (definitionDocuments variants))])

def fieldDocuments : List Field → List Value
  | [] => []
  | field :: rest => field.document :: fieldDocuments rest

def Definition.document : Definition → Value
  | ⟨uid, title, fields, referenceTo, _⟩ =>
    .object ([
      ("uid", .string uid),
      ("title", .string title),
      ("schema", .array (fieldDocuments fields))] ++
      optionalMember "reference_to" (referenceTo.map .string))

def definitionDocuments : List Definition → List Value
  | [] => []
  | definition :: rest => definition.document :: definitionDocuments rest

end

end ContentModels
