import ContentModels.Json.Draft
import ContentModels.Schema

set_option autoImplicit false

namespace ContentModels

open Json

def orDefault {α : Type} [Inhabited α] (read : Draft → Except Fault α) (d : Draft) :
    Except Fault α :=
  (·.getD default) <$> d.nullable read

namespace Origin

def ofName? : String → Option Origin
  | "content_type" => some .contentType
  | "global_field" => some .globalField
  | _ => none

def ofQuoted (quoted : Quoted) : Except Fault Origin := do
  let name ← quoted.text
  match ofName? name with
  | some origin => .ok origin
  | none => .error .unfit

def read : Nat → Draft → Except Fault Origin
  | _, .string quoted => ofQuoted quoted
  | 0, .object _ _ => .error .malformed
  | _ + 1, .object [] fault => .error (fault.getD .malformed)
  | _ + 1, .object ((key, value) :: rest) fault => do
    let origin ← ofQuoted key
    match value with
    | .null => pure ()
    | value => throw value.mismatch
    if rest.isEmpty then
      closed fault
      .ok origin
    else .error .malformed
  | _, .broken fault => .error fault
  | _, _ => .error .malformed

end Origin

namespace ReferenceTarget

def ofValue? : Value → Option ReferenceTarget
  | .string uid => some (.single uid)
  | .array items =>
    some (.many (items.filterMap fun item =>
      match item with
      | .string uid => some uid
      | _ => none))
  | _ => none

def read (budget : Nat) (d : Draft) : Except Fault (Option ReferenceTarget) :=
  (·.bind ofValue?) <$> d.nullable (Draft.value budget)

end ReferenceTarget

namespace Metadata

structure Columns where
  refMultiple : Option Bool := none
  refMultipleTargets : Option Bool := none
  richText : Option Bool := none
  markdown : Option Bool := none
  isExtension : Option Bool := none
  jsonRichText : Option Bool := none
  defaultValue : Option (Option Value) := none

def Columns.metadata (c : Columns) : Metadata where
  refMultiple := c.refMultiple.getD false
  refMultipleTargets := c.refMultipleTargets.getD false
  richText := c.richText.getD false
  markdown := c.markdown.getD false
  isExtension := c.isExtension.getD false
  jsonRichText := c.jsonRichText.getD false
  defaultValue := c.defaultValue.getD none

def keys : List String :=
  ["ref_multiple", "ref_multiple_content_types", "allow_rich_text", "markdown", "extension",
    "allow_json_rte", "default_value"]

def put (budget : Nat) (key : String) (d : Draft) (c : Columns) : Except Fault Columns :=
  match key with
  | "ref_multiple" =>
    (fun v => { c with refMultiple := v }) <$> fill c.refMultiple (orDefault Draft.flag d)
  | "ref_multiple_content_types" =>
    (fun v => { c with refMultipleTargets := v }) <$>
      fill c.refMultipleTargets (orDefault Draft.flag d)
  | "allow_rich_text" =>
    (fun v => { c with richText := v }) <$> fill c.richText (orDefault Draft.flag d)
  | "markdown" =>
    (fun v => { c with markdown := v }) <$> fill c.markdown (orDefault Draft.flag d)
  | "extension" =>
    (fun v => { c with isExtension := v }) <$> fill c.isExtension (orDefault Draft.flag d)
  | "allow_json_rte" =>
    (fun v => { c with jsonRichText := v }) <$> fill c.jsonRichText (orDefault Draft.flag d)
  | _ =>
    (fun v => { c with defaultValue := v }) <$>
      fill c.defaultValue (d.nullable (Draft.value budget))

def record (budget : Nat) : Record Columns := ⟨keys, {}, put budget⟩

def read : Nat → Draft → Except Fault Metadata
  | 0, d => .error d.overrun
  | budget + 1, d => Columns.metadata <$> (record budget).read d

end Metadata

namespace Field

structure Columns where
  uid : Option String := none
  displayName : Option String := none
  kind : Option DataKind := none
  isMultiple : Option Bool := none
  reference : Option (Option ReferenceTarget) := none
  metadata : Option Metadata := none
  nested : Option (List Field) := none
  variants : Option (List Definition) := none

def Columns.field (c : Columns) : Except Fault Field :=
  match c.uid, c.kind with
  | some uid, some kind =>
    .ok {
      uid := uid
      displayName := c.displayName.getD ""
      kind := kind
      isMultiple := c.isMultiple.getD false
      reference := c.reference.getD none
      metadata := c.metadata.getD {}
      nested := c.nested.getD []
      variants := c.variants.getD [] }
  | _, _ => .error .unfit

def keys : List String :=
  ["uid", "display_name", "data_type", "multiple", "reference_to", "field_metadata", "schema",
    "blocks"]

def put (budget : Nat) (fields : Draft → Except Fault (List Field))
    (variants : Draft → Except Fault (List Definition)) (key : String) (d : Draft) (c : Columns) :
    Except Fault Columns :=
  match key with
  | "uid" => (fun v => { c with uid := v }) <$> fill c.uid d.text
  | "display_name" =>
    (fun v => { c with displayName := v }) <$> fill c.displayName (orDefault Draft.text d)
  | "data_type" => (fun v => { c with kind := v }) <$> fill c.kind (DataKind.ofWire <$> d.text)
  | "multiple" =>
    (fun v => { c with isMultiple := v }) <$> fill c.isMultiple (orDefault Draft.flag d)
  | "reference_to" =>
    (fun v => { c with reference := v }) <$> fill c.reference (ReferenceTarget.read budget d)
  | "field_metadata" =>
    (fun v => { c with metadata := v }) <$> fill c.metadata (orDefault (Metadata.read budget) d)
  | "schema" => (fun v => { c with nested := v }) <$> fill c.nested (orDefault fields d)
  | _ => (fun v => { c with variants := v }) <$> fill c.variants (orDefault variants d)

def record (budget : Nat) (fields : Draft → Except Fault (List Field))
    (variants : Draft → Except Fault (List Definition)) : Record Columns :=
  ⟨keys, {}, put budget fields variants⟩

end Field

namespace Definition

structure Columns where
  uid : Option String := none
  title : Option String := none
  fields : Option (List Field) := none
  referenceTo : Option (Option String) := none

def Columns.definition (c : Columns) : Except Fault Definition :=
  match c.uid with
  | some uid =>
    .ok ⟨uid, c.title.getD "", c.fields.getD [], c.referenceTo.getD none, .contentType⟩
  | none => .error .unfit

def keys : List String := ["uid", "title", "schema", "reference_to"]

def put (fields : Draft → Except Fault (List Field)) (key : String) (d : Draft) (c : Columns) :
    Except Fault Columns :=
  match key with
  | "uid" => (fun v => { c with uid := v }) <$> fill c.uid d.text
  | "title" => (fun v => { c with title := v }) <$> fill c.title (orDefault Draft.text d)
  | "schema" => (fun v => { c with fields := v }) <$> fill c.fields (orDefault fields d)
  | _ => (fun v => { c with referenceTo := v }) <$> fill c.referenceTo (d.nullable Draft.text)

def record (fields : Draft → Except Fault (List Field)) : Record Columns := ⟨keys, {}, put fields⟩

end Definition

mutual

def Field.read : Nat → Draft → Except Fault Field
  | 0, d => .error d.overrun
  | budget + 1, d => do
    let columns ← (Field.record budget (readFields budget) (readDefinitions budget)).read d
    columns.field

def readFields : Nat → Draft → Except Fault (List Field)
  | 0, d => .error d.overrunList
  | budget + 1, d => d.listOf (Field.read budget)

def Definition.read : Nat → Draft → Except Fault Definition
  | 0, d => .error d.overrun
  | budget + 1, d => do
    let columns ← (Definition.record (readFields budget)).read d
    columns.definition

def readDefinitions : Nat → Draft → Except Fault (List Definition)
  | 0, d => .error d.overrunList
  | budget + 1, d => d.listOf (Definition.read budget)

end

end ContentModels
