import ContentModels.Proofs.Emission.Extent
import ContentModels.Proofs.Emission.Identity
import ContentModels.Proofs.Schema

set_option autoImplicit false

namespace ContentModels

def Field.inlines (field : Field) : Prop := field.kind = .group ∨ field.kind = .globalField

inductive Embeds (schema : Definition → List Field) : List Field → Prop
  | text {fields : List Field} {field : Field} (member : field ∈ fields) (kind : field.kind = .text)
      (target : field.reference.isSome = true) : Embeds schema fields
  | nested {fields : List Field} {field : Field} (member : field ∈ fields) (kind : field.inlines)
      (inner : Embeds schema field.nested) : Embeds schema fields
  | variant {fields : List Field} {field : Field} {v : Definition} (member : field ∈ fields)
      (kind : field.kind = .blocks) (among : v ∈ field.variants)
      (inner : Embeds schema (schema v)) : Embeds schema fields

theorem variantsEmbedEntries_iff (variants : List Definition) :
    variantsEmbedEntries variants = true ↔
      ∃ v ∈ variants, fieldsEmbedEntries v.fields = true := by
  induction variants with
  | nil => simp [variantsEmbedEntries]
  | cons v rest ih =>
    have own : v.embedsEntries = fieldsEmbedEntries v.fields := by
      cases v
      rfl
    simp [variantsEmbedEntries, own, ih]

theorem Field.embedsEntries_iff (field : Field) :
    field.embedsEntries = true ↔
      field.kind = .text ∧ field.reference.isSome = true ∨
      field.inlines ∧ fieldsEmbedEntries field.nested = true ∨
      field.kind = .blocks ∧ ∃ v ∈ field.variants, fieldsEmbedEntries v.fields = true := by
  rw [← variantsEmbedEntries_iff]
  obtain ⟨uid, displayName, kind, isMultiple, reference, metadata, nested, variants⟩ := field
  unfold embedsEntries inlines
  cases kind <;> simp

theorem fieldsEmbedEntries_cons (fields : List Field) :
    fieldsEmbedEntries fields = true ↔ ∃ field ∈ fields, field.embedsEntries = true := by
  induction fields with
  | nil => simp [fieldsEmbedEntries]
  | cons field rest ih => simp [fieldsEmbedEntries, ih]

theorem fieldsEmbedEntries_iff (fields : List Field) :
    fieldsEmbedEntries fields = true ↔ Embeds Definition.fields fields := by
  induction fields using fields_induction with
  | step fields inner =>
    rw [fieldsEmbedEntries_cons]
    constructor
    · rintro ⟨field, member, embeds⟩
      obtain ⟨nested, variants⟩ := inner field member
      rcases field.embedsEntries_iff.mp embeds with ⟨kind, target⟩ | ⟨kind, below⟩ |
        ⟨kind, v, among, below⟩
      · exact .text member kind target
      · exact .nested member kind (nested.mp below)
      · exact .variant member kind among ((variants v among).mp below)
    · intro embeds
      cases embeds with
      | @text _ field member kind target =>
        exact ⟨field, member, field.embedsEntries_iff.mpr (.inl ⟨kind, target⟩)⟩
      | @nested _ field member kind below =>
        have found := (inner field member).1.mpr below
        exact ⟨field, member, field.embedsEntries_iff.mpr (.inr (.inl ⟨kind, found⟩))⟩
      | @variant _ field v member kind among below =>
        have found := ((inner field member).2 v among).mpr below
        exact ⟨field, member, field.embedsEntries_iff.mpr (.inr (.inr ⟨kind, v, among, found⟩))⟩

-- The variants with the fields of a global field that are met before any other such variant.
inductive Meets : List Field → Definition → Prop
  | variant {fields : List Field} {field : Field} {v : Definition} (member : field ∈ fields)
      (kind : field.kind = .blocks) (among : v ∈ field.variants)
      (backed : v.referenceTo.isSome = true) : Meets fields v
  | nested {fields : List Field} {field : Field} {v : Definition} (member : field ∈ fields)
      (kind : field.inlines) (inner : Meets field.nested v) : Meets fields v
  | within {fields : List Field} {field : Field} {v w : Definition} (member : field ∈ fields)
      (kind : field.kind = .blocks) (among : w ∈ field.variants)
      (own : w.referenceTo = none) (inner : Meets w.fields v) : Meets fields v

namespace Definition

def ownFields (v : Definition) : List Field := if v.referenceTo.isSome then [] else v.fields

theorem ownFields_eq {v : Definition} (own : v.referenceTo = none) : v.ownFields = v.fields := by
  simp [ownFields, own]

end Definition

theorem Embeds.of_ownFields {schema : Definition → List Field}
    (agrees : ∀ v : Definition, v.referenceTo = none → schema v = v.fields) {fields : List Field}
    (embeds : Embeds Definition.ownFields fields) : Embeds schema fields := by
  induction embeds with
  | text member kind target => exact .text member kind target
  | nested member kind _ ih => exact .nested member kind ih
  | @variant fields field v member kind among inner ih =>
    cases own : v.referenceTo with
    | none =>
      rw [Definition.ownFields_eq own, ← agrees v own] at ih
      exact .variant member kind among ih
    | some globalField =>
      have empty : v.ownFields = [] := by simp [Definition.ownFields, own]
      rw [empty] at inner
      cases inner <;> simp_all

theorem Embeds.cases_met (schema : Definition → List Field)
    (agrees : ∀ v : Definition, v.referenceTo = none → schema v = v.fields) (fields : List Field) :
    Embeds schema fields ↔
      Embeds Definition.ownFields fields ∨ ∃ v, Meets fields v ∧ Embeds schema (schema v) := by
  constructor
  · intro embeds
    induction embeds with
    | text member kind target => exact .inl (.text member kind target)
    | nested member kind _ ih =>
      exact ih.imp (.nested member kind) fun ⟨v, meets, inner⟩ => ⟨v, .nested member kind meets, inner⟩
    | @variant fields field w member kind among inner ih =>
      cases own : w.referenceTo with
      | none =>
        rw [agrees w own] at ih
        refine ih.imp (fun own_inner => ?_) fun ⟨v, meets, inner⟩ =>
          ⟨v, .within member kind among own meets, inner⟩
        exact .variant member kind among (Definition.ownFields_eq own ▸ own_inner)
      | some globalField => exact .inr ⟨w, .variant member kind among (by simp [own]), inner⟩
  · rintro (own | ⟨v, meets, inner⟩)
    · exact own.of_ownFields agrees
    · induction meets with
      | variant member kind among => exact .variant member kind among inner
      | nested member kind _ ih => exact .nested member kind (ih inner)
      | within member kind among own _ ih =>
        exact .variant member kind among (agrees _ own ▸ ih inner)

def Registry.variantFields (r : Registry) (v : Definition) : List Field :=
  match v.referenceTo with
  | none => v.fields
  | some globalField => ((r.lookup globalField).map Definition.fields).getD []

-- Whether the variants met in the fields of a definition that take the fields of a global field
-- lead to embedded entries in what they declare just as in what they take.
def Registry.Faithful (r : Registry) (d : Definition) : Prop :=
  (∃ v, Meets d.fields v ∧ Embeds Definition.fields v.fields) ↔
    ∃ v, Meets d.fields v ∧ Embeds r.variantFields (r.variantFields v)

namespace Emission

variable {c : Context}

theorem Origin.holds {l : Ledger} {target : Plan} {plans : List Plan} {P : Plan → Prop}
    (origin : Origin c l target plans) (every : ∀ plan ∈ plans, plan.Every P) : P target := by
  induction origin with
  | here member => cases every _ member <;> assumption
  | deeper member _ ih =>
    cases every _ member with
    | model _ inner => exact ih inner

def Plan.Anonymous (c : Context) (plan : Plan) : Prop :=
  ∀ u, plan.unit? c = some u → ∀ uid, u.body ≠ .model (some uid)

theorem Site.Outlines.nested_anonymous {s : Site} {o : Outline} {nested : List Plan}
    (outlines : s.Outlines c o nested) : ∀ plan ∈ nested, plan.Every (Plan.Anonymous c) := by
  intro plan member
  rcases outlines.within plan member with planned | ⟨diagnostics, rfl⟩
  · cases Site.placed_of_mem planned with
    | note => exact .note nofun
    | blockSet _ _ own =>
      refine .unit ?_
      rintro u ⟨⟩ uid model
      exact blockSet_kind own (congrArg UnitBody.kind model)
    | @model _ t inner _ nests below =>
      have smaller := List.sizeOf_lt_of_mem member
      have role : t.role ≠ .entry := by cases nests <;> exact nofun
      refine .model ?_ below.nested_anonymous
      rintro u ⟨⟩ uid model
      have typed : inner.contentTypeUid = some uid := UnitBody.model.inj model
      rw [below.contentTypeUid, if_neg role] at typed
      cases typed
  · exact .note nofun
termination_by sizeOf nested
decreasing_by simp only [Plan.model.sizeOf_spec] at smaller; omega

theorem finished_entry {u : GeneratedUnit} (member : u ∈ (finished c).units.toList) {uid : String}
    (entry : u.body = .model (some uid)) :
    ∃ d ∈ c.registry.all, d.uid = uid ∧ u = (Outline.ofEntry c d).unit c := by
  rcases (Plan.runAll_traced c (generationPlans c) {}).units u member with
    before | ⟨target, emits, origin⟩
  · simp at before
  cases origin with
  | here among =>
    rcases generationPlans_rooted c _ among with support | ⟨d, registered, rfl⟩
    · obtain ⟨v, known, rfl⟩ := List.mem_map.mp support
      cases emits
      exact absurd (congrArg UnitBody.kind entry) (supportUnits_kind known)
    · cases emits
      cases entry
      exact ⟨d, registered, rfl, rfl⟩
  | deeper among inner =>
    rcases generationPlans_rooted c _ among with support | ⟨d, registered, same⟩
    · simp [supportPlans] at support
    · cases same
      exact absurd entry
        (inner.holds (Site.ofDefinition_outlines d).nested_anonymous u emits uid)

theorem Outline.ofEntry_marked (d : Definition) :
    entryEmbeddable ∈ ((Outline.ofEntry c d).unit c).bases ↔ Embeds Definition.fields d.fields := by
  have other : entryEmbeddable ≠ embeddedObject := by decide
  rw [← fieldsEmbedEntries_iff]
  simp [Outline.unit, Outline.ofEntry, other]

theorem generate_embeddable_iff {registry : Registry} (built : registry.Built)
    (options : Options) :
    ∃ output, generate registry options = .ok output ∧ ∀ d ∈ registry.all, ∀ u ∈ output.units,
      u.body = .model (some d.uid) →
        (entryEmbeddable ∈ u.bases ↔ Embeds Definition.fields d.fields) ∧
        ((entryEmbeddable ∈ u.bases ↔ Embeds registry.variantFields d.fields) ↔
          Embeds Definition.ownFields d.fields ∨ registry.Faithful d) := by
  refine ⟨_, generate_eq registry options, fun d registered u member entry => ?_⟩
  obtain ⟨e, known, uid, rfl⟩ := finished_entry member entry
  obtain rfl := built.coherent.uid_injective known registered uid
  have marked := Outline.ofEntry_marked (c := ⟨registry, options⟩) e
  have written := Embeds.cases_met Definition.fields (fun _ _ => rfl) e.fields
  have emitted := Embeds.cases_met registry.variantFields
    (fun v own => by simp [Registry.variantFields, own]) e.fields
  refine ⟨marked, ?_⟩
  rw [marked, written, emitted]
  by_cases own : Embeds Definition.ownFields e.fields
  · simp only [own, true_or]
  · simp only [own, false_or, Registry.Faithful]

def richText : Definition :=
  (Definition.new "rich_text" "Rich Text"
    [(Field.new "text" .text).withReference (.many ["page"])]).withOrigin .globalField

-- What the page embeds is embedded by the global field that its one variant takes its fields from.
def quotingPage : Definition :=
  .new "page" "Page" [(Field.new "body" .blocks).withBlocks
    [(Definition.new "rich" "Rich" []).referencing "rich_text"]]

def quotingPages : Registry := .ofList [quotingPage, richText]

theorem richText_embeds (schema : Definition → List Field) : Embeds schema richText.fields :=
  .text (List.mem_singleton_self _) rfl rfl

theorem quotingPage_embeds : Embeds quotingPages.variantFields quotingPage.fields := by
  refine .variant (List.mem_singleton_self _) rfl (List.mem_singleton_self _) ?_
  have taken : quotingPages.lookup "rich_text" = some richText := rfl
  simp only [Definition.referencing, Registry.variantFields, taken]
  exact richText_embeds _

theorem quotingPages_shown {output : Output}
    (generated : generate quotingPages { supportUnits := false } = .ok output) :
    output.diagnostics = [] ∧
      (∃ u ∈ output.units, u.body = .model (some "page") ∧ u.bases = [embeddedObject]) ∧
      ∃ u ∈ output.units, u.body = .model (some "rich_text") ∧
        u.bases = [entryEmbeddable, embeddedObject] := by
  have shown : (generate quotingPages { supportUnits := false }).toOption.map (fun output =>
      (output.diagnostics,
        output.units.any fun u => u.body = .model (some "page") ∧ u.bases = [embeddedObject],
        output.units.any fun u => u.body = .model (some "rich_text") ∧
          u.bases = [entryEmbeddable, embeddedObject])) = some ([], true, true) := by
    decide +kernel
  rw [generated] at shown
  simpa [Except.toOption] using shown

theorem quotingPages_embeddable_iff : quotingPages.Built ∧
    ∃ output, generate quotingPages { supportUnits := false } = .ok output ∧
      ∃ u ∈ output.units, u.body = .model (some "rich_text") ∧ entryEmbeddable ∈ u.bases ∧
        ((entryEmbeddable ∈ u.bases ↔ Embeds quotingPages.variantFields richText.fields) ↔
          Embeds Definition.ownFields richText.fields ∨ quotingPages.Faithful richText) := by
  have built : quotingPages.Built := .extend .empty _
  obtain ⟨output, generated, exact⟩ :=
    generate_embeddable_iff built { supportUnits := false }
  obtain ⟨_, _, u, member, entry, bases⟩ := quotingPages_shown generated
  have registered : richText ∈ quotingPages.all := .tail _ (.head _)
  obtain ⟨_, marked⟩ := exact richText registered u member entry
  exact ⟨built, output, generated, u, member, entry, by simp [bases], marked⟩

theorem quotingPages_unmarked : quotingPages.Built ∧ quotingPage ∈ quotingPages.all ∧
    ∃ output, generate quotingPages { supportUnits := false } = .ok output ∧
      output.diagnostics = [] ∧ ∃ u ∈ output.units, u.body = .model (some quotingPage.uid) ∧
        entryEmbeddable ∉ u.bases ∧ Embeds quotingPages.variantFields quotingPage.fields := by
  have generated := generate_eq quotingPages { supportUnits := false }
  obtain ⟨silent, ⟨u, member, entry, bases⟩, _⟩ := quotingPages_shown generated
  refine ⟨.extend .empty _, .head _, _, generated, silent, u, member, entry, ?_, ?_⟩
  · rw [bases]
    decide
  · exact quotingPage_embeds

end Emission

end ContentModels
