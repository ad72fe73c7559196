import Mathlib
import ContentModels.Proofs.Schema.Settled
import ContentModels.Schema.Document

set_option autoImplicit false

namespace ContentModels

open Json

theorem map_fill {α β : Type} (f : Option α → β) {slot : Option α} {read : Except Fault α} {a : α}
    (free : slot = none) (found : read = .ok a) : f <$> fill slot read = .ok (f (some a)) := by
  rw [free, found]
  rfl

theorem nullable_draft {α : Type} {read : Draft → Except Fault α} {v : Value} {a : α}
    (present : v ≠ .null) (found : read v.draft = .ok a) :
    v.draft.nullable read = .ok (some a) := by
  have written : v.draft ≠ .null := by
    cases v with
    | null => exact absurd rfl present
    | _ => exact nofun
  rw [nullable_of_ne_null read written, found]
  rfl

theorem orDefault_draft {α : Type} [Inhabited α] {read : Draft → Except Fault α} {v : Value}
    {a : α} (present : v ≠ .null) (found : read v.draft = .ok a) :
    orDefault read v.draft = .ok a := by
  rw [orDefault, nullable_draft present found]
  rfl

theorem Metadata.read_document {m : Metadata} (settled : m.Settled) {budget : Nat}
    (shallow : m.document.depth ≤ budget) : Metadata.read budget m.document.draft = .ok m := by
  obtain ⟨rest, rfl, within⟩ := Value.depth_object_le.mp shallow
  obtain ⟨a, b, c, d, e, f, defaultValue⟩ := m
  cases defaultValue with
  | none => rfl
  | some v =>
    obtain ⟨present, settled⟩ := settled v rfl
    have read := settled.rereads rest (within ("default_value", v) (by simp [optionalMember]))
    have nulled := nullable_draft present read
    have last (columns : Columns) (free : columns.defaultValue = none) :
        put rest "default_value" v.draft columns =
          .ok { columns with defaultValue := some (some v) } :=
      map_fill _ free nulled
    show Columns.metadata <$> (record rest).read (Value.object _).draft = _
    rw [Record.read_object (by simp [optionalMember, record, keys])]
    -- Every flag fills a column of its own, so only the default is left to read.
    show Columns.metadata <$> (put rest "default_value" v.draft
      ⟨some a, some b, some c, some d, some e, some f, none⟩ >>= pure) = _
    rw [last _ rfl]
    rfl

theorem ReferenceTarget.ofValue_document (target : ReferenceTarget) :
    ofValue? target.document = some target := by
  cases target with
  | single uid => rfl
  | many uids => simp [document, ofValue?, List.filterMap_map]

theorem ReferenceTarget.settled_document (target : ReferenceTarget) :
    target.document.Settled := by
  cases target with
  | single uid => exact Value.settled_string uid
  | many uids =>
    apply Value.settled_array
    intro item among
    obtain ⟨uid, -, rfl⟩ := List.mem_map.mp among
    exact Value.settled_string uid

theorem ReferenceTarget.read_document (target : ReferenceTarget) {budget : Nat}
    (shallow : target.document.depth ≤ budget) :
    ReferenceTarget.read budget target.document.draft = .ok (some target) := by
  have present : target.document ≠ .null := by cases target <;> exact nofun
  have found := nullable_draft present (target.settled_document.rereads budget shallow)
  rw [read, found]
  exact congrArg Except.ok target.ofValue_document

theorem fieldDocuments_eq (fields : List Field) :
    fieldDocuments fields = fields.map Field.document := by
  induction fields with
  | nil => rfl
  | cons field rest ih => rw [fieldDocuments, ih, List.map_cons]

theorem definitionDocuments_eq (definitions : List Definition) :
    definitionDocuments definitions = definitions.map Definition.document := by
  induction definitions with
  | nil => rfl
  | cons d rest ih => rw [definitionDocuments, ih, List.map_cons]

def fieldsDocument (fields : List Field) : Value := .array (fieldDocuments fields)

def definitionsDocument (definitions : List Definition) : Value :=
  .array (definitionDocuments definitions)

theorem Field.document_eq (field : Field) :
    field.document = .object ([
      ("uid", .string field.uid),
      ("display_name", .string field.displayName),
      ("data_type", .string field.kind.wire),
      ("multiple", .boolean field.isMultiple)] ++
      optionalMember "reference_to" (field.reference.map ReferenceTarget.document) ++ [
      ("field_metadata", field.metadata.document),
      ("schema", fieldsDocument field.nested),
      ("blocks", definitionsDocument field.variants)]) := by
  cases field
  rfl

theorem Definition.document_eq (d : Definition) :
    d.document = .object ([
      ("uid", .string d.uid),
      ("title", .string d.title),
      ("schema", fieldsDocument d.fields)] ++
      optionalMember "reference_to" (d.referenceTo.map .string)) := by
  cases d
  rfl

def Field.columns (field : Field) : Field.Columns :=
  ⟨some field.uid, some field.displayName, some field.kind, some field.isMultiple,
    field.reference.map some, some field.metadata, some field.nested, some field.variants⟩

theorem Field.columns_field (field : Field) : field.columns.field = .ok field := by
  obtain ⟨_, _, _, _, reference, _, _, _⟩ := field
  cases reference <;> rfl

-- Every member of the document fills a column of its own.
theorem Field.read_columns {field : Field} {budget : Nat}
    {fields : Draft → Except Fault (List Field)}
    {variants : Draft → Except Fault (List Definition)}
    (kind : DataKind.ofWire field.kind.wire = field.kind)
    (target : ∀ target ∈ field.reference,
      ReferenceTarget.read budget target.document.draft = .ok (some target))
    (metadata : Metadata.read budget field.metadata.document.draft = .ok field.metadata)
    (nested : fields (fieldsDocument field.nested).draft = .ok field.nested)
    (listed : variants (definitionsDocument field.variants).draft = .ok field.variants) :
    (record budget fields variants).read field.document.draft = .ok field.columns := by
  let step (c : Columns) (member : String × Value) : Except Fault Columns :=
    put budget fields variants member.1 member.2.draft c
  have scalars : [("uid", .string field.uid), ("display_name", .string field.displayName),
      ("data_type", .string field.kind.wire), ("multiple", .boolean field.isMultiple)].foldlM
        step {} =
      .ok { uid := field.uid, displayName := field.displayName, kind := field.kind,
            isMultiple := field.isMultiple } := by
    show Except.ok (Columns.mk _ _ (some (DataKind.ofWire field.kind.wire)) _ _ _ _ _) = _
    rw [kind]
    rfl
  have reference (c : Columns) (free : c.reference = none) :
      (optionalMember "reference_to" (field.reference.map ReferenceTarget.document)).foldlM step c =
        .ok { c with reference := field.reference.map some } := by
    cases given : field.reference with
    | none => exact congrArg (fun r => Except.ok { c with reference := r }) free
    | some found => exact foldlM_cons_ok (map_fill _ free (target found given))
  have metadataPut (c : Columns) (free : c.metadata = none) :
      step c ("field_metadata", field.metadata.document) =
        .ok { c with metadata := field.metadata } :=
    map_fill _ free (orDefault_draft nofun metadata)
  have nestedPut (c : Columns) (free : c.nested = none) :
      step c ("schema", fieldsDocument field.nested) = .ok { c with nested := field.nested } :=
    map_fill _ free (orDefault_draft nofun nested)
  have variantsPut (c : Columns) (free : c.variants = none) :
      step c ("blocks", definitionsDocument field.variants) =
        .ok { c with variants := field.variants } :=
    map_fill _ free (orDefault_draft nofun listed)
  rw [Field.document_eq, Record.read_object]
  · show List.foldlM step {} _ = _
    rw [List.append_assoc, foldlM_append_ok scalars, foldlM_append_ok (reference _ rfl),
      foldlM_cons_ok (metadataPut _ rfl), foldlM_cons_ok (nestedPut _ rfl),
      foldlM_cons_ok (variantsPut _ rfl)]
    rfl
  · cases field.reference <;> simp [record, keys, optionalMember]

theorem Field.read_document {field : Field} (settled : field.Settled) {budget : Nat}
    (shallow : field.document.depth ≤ budget)
    (nested : ∀ budget, (fieldsDocument field.nested).depth ≤ budget →
      readFields budget (fieldsDocument field.nested).draft = .ok field.nested)
    (listed : ∀ budget, (definitionsDocument field.variants).depth ≤ budget →
      readDefinitions budget (definitionsDocument field.variants).draft = .ok field.variants) :
    Field.read budget field.document.draft = .ok field := by
  rw [Field.document_eq] at shallow
  obtain ⟨rest, rfl, within⟩ := Value.depth_object_le.mp shallow
  simp only [List.forall_mem_append, List.forall_mem_cons] at within
  obtain ⟨⟨-, target⟩, metadata, schema, blocks, -⟩ := within
  have read : (record rest (readFields rest) (readDefinitions rest)).read field.document.draft =
      .ok field.columns := by
    refine read_columns settled.kind ?_ (Metadata.read_document settled.metadata metadata)
      (nested rest schema) (listed rest blocks)
    intro found given
    apply found.read_document (target ("reference_to", found.document) _)
    simp [optionalMember, Option.mem_def.mp given]
  exact bind_eq_ok.mpr ⟨_, read, field.columns_field⟩

def Definition.columns (d : Definition) : Definition.Columns :=
  ⟨some d.uid, some d.title, some d.fields, d.referenceTo.map some⟩

theorem Definition.read_columns {d : Definition} {fields : Draft → Except Fault (List Field)}
    (nested : fields (fieldsDocument d.fields).draft = .ok d.fields) :
    (record fields).read d.document.draft = .ok d.columns := by
  let step (c : Columns) (member : String × Value) : Except Fault Columns :=
    put fields member.1 member.2.draft c
  have scalars : [("uid", .string d.uid), ("title", .string d.title),
      ("schema", fieldsDocument d.fields)].foldlM step {} =
        .ok ⟨some d.uid, some d.title, some d.fields, none⟩ := by
    have put (c : Columns) (free : c.fields = none) :
        step c ("schema", fieldsDocument d.fields) = .ok { c with fields := d.fields } :=
      map_fill _ free (orDefault_draft nofun nested)
    exact foldlM_cons_ok (put ⟨some d.uid, some d.title, none, none⟩ rfl)
  rw [Definition.document_eq, Record.read_object]
  · show List.foldlM step {} _ = _
    rw [foldlM_append_ok scalars]
    cases given : d.referenceTo <;> simp [optionalMember, columns, given] <;> rfl
  · cases d.referenceTo <;> simp [record, keys, optionalMember]

theorem Definition.read_document {d : Definition} (origin : d.origin = .contentType) {budget : Nat}
    (shallow : d.document.depth ≤ budget)
    (nested : ∀ budget, (fieldsDocument d.fields).depth ≤ budget →
      readFields budget (fieldsDocument d.fields).draft = .ok d.fields) :
    Definition.read budget d.document.draft = .ok d := by
  rw [Definition.document_eq] at shallow
  obtain ⟨rest, rfl, within⟩ := Value.depth_object_le.mp shallow
  simp only [List.forall_mem_append, List.forall_mem_cons] at within
  obtain ⟨⟨-, -, schema, -⟩, -⟩ := within
  have made : d.columns.definition = .ok d := by
    obtain ⟨_, _, _, referenceTo, _⟩ := d
    subst origin
    cases referenceTo <;> rfl
  exact bind_eq_ok.mpr ⟨_, read_columns (nested rest schema), made⟩

theorem readDefinitions_document {definitions : List Definition}
    (origin : ∀ d ∈ definitions, d.origin = .contentType)
    (nested : ∀ d ∈ definitions, ∀ budget, (fieldsDocument d.fields).depth ≤ budget →
      readFields budget (fieldsDocument d.fields).draft = .ok d.fields)
    {budget : Nat} (shallow : (definitionsDocument definitions).depth ≤ budget) :
    readDefinitions budget (definitionsDocument definitions).draft = .ok definitions := by
  rw [definitionsDocument, definitionDocuments_eq] at shallow ⊢
  obtain ⟨rest, rfl, within⟩ := Value.depth_array_le.mp shallow
  refine Value.listOf_draft Definition.document fun d member => ?_
  exact Definition.read_document (origin d member) (within _ (List.mem_map_of_mem member))
    (nested d member)

theorem readFields_document (fields : List Field) (settled : SettledWithin fields) :
    ∀ budget, (fieldsDocument fields).depth ≤ budget →
      readFields budget (fieldsDocument fields).draft = .ok fields := by
  induction fields using fields_induction with
  | step fields inner =>
    intro budget shallow
    rw [fieldsDocument, fieldDocuments_eq] at shallow ⊢
    obtain ⟨rest, rfl, within⟩ := Value.depth_array_le.mp shallow
    refine Value.listOf_draft Field.document fun field member => ?_
    obtain ⟨own, nested, variants⟩ := (forall_fieldsWithin fields).mp settled field member
    obtain ⟨ofNested, ofVariants⟩ := inner field member
    exact Field.read_document own (within _ (List.mem_map_of_mem member)) (ofNested nested)
      fun budget => readDefinitions_document own.variants
        fun v listed => ofVariants v listed (variants v listed)

def Definition.defaults (d : Definition) : List Value :=
  (fieldsWithin d.fields).filterMap fun field => field.metadata.defaultValue

theorem Metadata.numbers_document {m : Metadata} {n : Number}
    (held : n ∈ m.document.numbers) : ∃ v ∈ m.defaultValue, n ∈ v.numbers := by
  obtain ⟨_, _, _, _, _, _, defaultValue⟩ := m
  cases defaultValue with
  | none => cases held
  | some v => exact ⟨v, rfl, by simpa [document, optionalMember, Value.numbers,
      Value.memberNumbers] using held⟩

theorem ReferenceTarget.numbers_document (target : ReferenceTarget) :
    target.document.numbers = [] := by
  cases target with
  | single uid => rfl
  | many uids =>
    apply List.eq_nil_iff_forall_not_mem.mpr
    simp [document, Value.numbers, Value.mem_itemNumbers]

theorem Definition.numbers_document (d : Definition) :
    d.document.numbers = (fieldsDocument d.fields).numbers := by
  cases given : d.referenceTo <;>
    simp [document_eq, given, optionalMember, Value.numbers,
      Value.memberNumbers]

theorem Field.numbers_document (field : Field) :
    field.document.numbers = field.metadata.document.numbers ++
      (fieldsDocument field.nested).numbers ++ (definitionsDocument field.variants).numbers := by
  cases given : field.reference <;>
    simp [document_eq, given, optionalMember, Value.numbers,
      Value.memberNumbers, ReferenceTarget.numbers_document]

theorem numbers_definitionsDocument {n : Number} {definitions : List Definition}
    (held : n ∈ (definitionsDocument definitions).numbers) :
    ∃ d ∈ definitions, n ∈ (fieldsDocument d.fields).numbers := by
  rw [definitionsDocument, definitionDocuments_eq, Value.numbers, Value.mem_itemNumbers] at held
  obtain ⟨_, written, held⟩ := held
  obtain ⟨d, listed, rfl⟩ := List.mem_map.mp written
  exact ⟨d, listed, d.numbers_document ▸ held⟩

-- Everything in a document is a text or a flag but for the defaults.
theorem numbers_fieldsDocument {n : Number} (fields : List Field)
    (held : n ∈ (fieldsDocument fields).numbers) :
    ∃ field ∈ fieldsWithin fields, ∃ v ∈ field.metadata.defaultValue, n ∈ v.numbers := by
  induction fields using fields_induction with
  | step fields inner =>
    rw [fieldsDocument, fieldDocuments_eq, Value.numbers, Value.mem_itemNumbers] at held
    obtain ⟨_, written, held⟩ := held
    obtain ⟨field, member, rfl⟩ := List.mem_map.mp written
    obtain ⟨ofNested, ofVariants⟩ := inner field member
    have deeper {g : Field} (among : g ∈ field.within) : g ∈ fieldsWithin fields :=
      (mem_fieldsWithin g fields).mpr ⟨field, member, among⟩
    rw [Field.numbers_document, List.mem_append, List.mem_append] at held
    rcases held with (own | nested) | variants
    · exact ⟨field, deeper ((Field.mem_within ..).mpr (.inl rfl)), Metadata.numbers_document own⟩
    · obtain ⟨g, among, holds⟩ := ofNested nested
      exact ⟨g, deeper ((Field.mem_within ..).mpr (.inr (.inl among))), holds⟩
    · obtain ⟨v, listed, held⟩ := numbers_definitionsDocument variants
      obtain ⟨g, among, holds⟩ := ofVariants v listed held
      exact ⟨g, deeper ((Field.mem_within ..).mpr (.inr (.inr ⟨v, listed, among⟩))), holds⟩

def Definition.ofText (text : String) : Except Fault Definition :=
  (Document.ofText text).decode (Definition.read nestingBudget)

def Definition.toText (d : Definition) : String := d.document.text

def Definition.Floatless (d : Definition) : Prop :=
  ∀ v ∈ d.defaults, ∀ n ∈ v.numbers, n.isInteger = true

instance (d : Definition) : Decidable d.Floatless :=
  inferInstanceAs (Decidable (∀ v ∈ d.defaults, ∀ n ∈ v.numbers, n.isInteger = true))

theorem Definition.ofText_settled {text : String} {d : Definition} (decoded : ofText text = .ok d) :
    d.Settled := by
  obtain ⟨found, read, closing⟩ := bind_eq_ok.mp decoded
  split at closing <;> cases closing
  exact read_settled (Document.ofText_inRange text) read

theorem Definition.Settled.exact {d : Definition} (settled : d.Settled) (floatless : d.Floatless) :
    d.document.Exact := by
  intro n held
  rw [d.numbers_document] at held
  obtain ⟨field, among, v, given, holds⟩ := numbers_fieldsDocument d.fields held
  have default : v ∈ d.defaults := List.mem_filterMap.mpr ⟨field, among, given⟩
  exact ⟨floatless v default n holds,
    ((settled.fields field among).metadata v given).2.inRange n holds⟩

theorem Definition.Settled.ofText_toText {d : Definition} (settled : d.Settled)
    (floatless : d.Floatless) (shallow : d.document.depth ≤ nestingBudget) :
    ofText d.toText = .ok d := by
  have read := read_document settled.origin shallow (readFields_document d.fields settled.fields)
  rw [ofText, toText, Document.ofText_text (settled.exact floatless)]
  exact bind_eq_ok.mpr ⟨d, read, rfl⟩

theorem Definition.ofText_roundTrip {text : String} {d : Definition}
    (decoded : ofText text = .ok d) (floatless : d.Floatless)
    (shallow : d.document.depth ≤ nestingBudget) (origin : Origin) :
    ofText (d.withOrigin origin).toText = .ok (d.withOrigin .contentType) ∧
      d.withOrigin .contentType = d ∧ toText <$> ofText d.toText = .ok d.toText := by
  have settled := ofText_settled decoded
  have read := settled.ofText_toText floatless shallow
  have back : d.withOrigin .contentType = d := by
    obtain ⟨_, _, _, _, _⟩ := d
    exact congrArg _ settled.origin.symm
  have same : (d.withOrigin origin).toText = d.toText := by
    cases d
    rfl
  refine ⟨?_, back, map_eq_ok.mpr ⟨d, read, rfl⟩⟩
  rw [same, back]
  exact read

-- A document with nulls, an unknown key, records in both forms and members out of order.
def storySource : Value :=
  .object [
    ("title", .null),
    ("uid", .string "story"),
    ("maintainer", .nat 7),
    ("schema", .array [
      .object [
        ("uid", .string "tags"),
        ("data_type", .string "rating"),
        ("reference_to", .array [.string "tag", .nat 7]),
        ("field_metadata", .object [
          ("markdown", .boolean true),
          ("default_value", .object [
            ("b", .boolean true), ("a", .array [.int (-1), .string "\n"]), ("b", .null)])])],
      .array [
        .string "body", .string "Body", .string "blocks", .null, .string "page", .null, .array [],
        .array [.array [.string "quote", .string "Quote", .array [], .string "quotation"]]]])]

def story : Definition :=
  ⟨"story", "", [
    { uid := "tags", displayName := "", kind := .other "rating", isMultiple := false,
      reference := some (.many ["tag"]),
      metadata := {
        markdown := true,
        defaultValue := some (.object [
          ("a", .array [.int (-1), .string "\n"]), ("b", .null)]) },
      nested := [], variants := [] },
    { uid := "body", displayName := "Body", kind := .blocks, isMultiple := false,
      reference := some (.single "page"), metadata := {}, nested := [],
      variants := [⟨"quote", "Quote", [], some "quotation", .contentType⟩] }],
    none, .contentType⟩

theorem story_roundTrip :
    Definition.ofText storySource.text = .ok story ∧ story.Floatless ∧
      story.document.depth ≤ nestingBudget ∧
      Definition.ofText (story.withOrigin .globalField).toText = .ok story := by
  have read : Definition.ofText storySource.text = .ok story := by
    have exact : storySource.Exact := by decide
    rw [Definition.ofText, Document.ofText_text exact]
    rfl
  have floatless : story.Floatless := by decide
  have shallow : story.document.depth ≤ nestingBudget := by decide
  obtain ⟨back, -, -⟩ := Definition.ofText_roundTrip read floatless shallow .globalField
  exact ⟨read, floatless, shallow, back⟩

end ContentModels
