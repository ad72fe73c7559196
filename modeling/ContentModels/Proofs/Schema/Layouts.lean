import ContentModels.Proofs.Json.Records
import ContentModels.Schema.Reading

set_option autoImplicit false

namespace ContentModels

open Json

def Definition.layout (fields : Draft → Except Fault (List Field)) :
    Layout Columns Definition where
  record := record fields
  columns := [
    ⟨"uid", String, Draft.text, (·.uid), fun v c => { c with uid := v }, (·.uid), none⟩,
    ⟨"title", String, orDefault Draft.text, (·.title), fun v c => { c with title := v },
      (·.title), some ""⟩,
    ⟨"schema", List Field, orDefault fields, (·.fields), fun v c => { c with fields := v },
      (·.fields), some []⟩,
    ⟨"reference_to", Option String, (·.nullable Draft.text), (·.referenceTo),
      fun v c => { c with referenceTo := v }, (·.referenceTo), some none⟩]
  finish := Columns.definition
  -- A document does not say where its definition comes from.
  fits d := d.origin = .contentType

theorem Definition.layout_lawful (fields : Draft → Except Fault (List Field)) :
    (layout fields).Lawful where
  keys := rfl
  distinct := (by decide : keys.Nodup)
  start := by simp [layout, record]
  put := by
    intro c among
    simp only [layout, List.mem_cons, List.not_mem_nil, or_false] at among
    rcases among with rfl | rfl | rfl | rfl
    all_goals exact fun _ _ => rfl
  get_set := by simp [layout]
  get_set_of_ne := by simp [layout]
  finish := by
    rintro ⟨uid, _, _, _⟩ ⟨_, _, _, _, _⟩
    cases uid <;> simp [layout, Columns.definition, -Option.or_eq_some_iff, Option.or_some]
    grind
  finishes := by
    rintro ⟨uid, _, _, _⟩ complete
    cases uid <;> simp_all [layout, Columns.definition]
  null := by
    intro c among
    simp only [layout, List.mem_cons, List.not_mem_nil, or_false] at among
    rcases among with rfl | rfl | rfl | rfl
    all_goals rintro _ ⟨⟩ <;> rfl

def Field.layout (budget : Nat) (fields : Draft → Except Fault (List Field))
    (variants : Draft → Except Fault (List Definition)) : Layout Columns Field where
  record := record budget fields variants
  columns := [
    ⟨"uid", String, Draft.text, (·.uid), fun v c => { c with uid := v }, (·.uid), none⟩,
    ⟨"display_name", String, orDefault Draft.text, (·.displayName),
      fun v c => { c with displayName := v }, (·.displayName), some ""⟩,
    ⟨"data_type", DataKind, (DataKind.ofWire <$> ·.text), (·.kind),
      fun v c => { c with kind := v }, (·.kind), none⟩,
    ⟨"multiple", Bool, orDefault Draft.flag, (·.isMultiple),
      fun v c => { c with isMultiple := v }, (·.isMultiple), some false⟩,
    ⟨"reference_to", Option ReferenceTarget, ReferenceTarget.read budget, (·.reference),
      fun v c => { c with reference := v }, (·.reference), some none⟩,
    ⟨"field_metadata", Metadata, orDefault (Metadata.read budget), (·.metadata),
      fun v c => { c with metadata := v }, (·.metadata), some {}⟩,
    ⟨"schema", List Field, orDefault fields, (·.nested), fun v c => { c with nested := v },
      (·.nested), some []⟩,
    ⟨"blocks", List Definition, orDefault variants, (·.variants),
      fun v c => { c with variants := v }, (·.variants), some []⟩]
  finish := Columns.field
  fits _ := True

theorem Field.layout_lawful (budget : Nat) (fields : Draft → Except Fault (List Field))
    (variants : Draft → Except Fault (List Definition)) :
    (layout budget fields variants).Lawful where
  keys := rfl
  distinct := (by decide : keys.Nodup)
  start := by simp [layout, record]
  put := by
    intro c among
    simp only [layout, List.mem_cons, List.not_mem_nil, or_false] at among
    rcases among with rfl | rfl | rfl | rfl | rfl | rfl | rfl | rfl
    all_goals exact fun _ _ => rfl
  get_set := by simp [layout]
  get_set_of_ne := by simp [layout]
  finish := by
    rintro ⟨uid, _, kind, _, _, _, _, _⟩ ⟨_, _, _, _, _, _, _, _⟩
    cases uid <;> cases kind <;>
      simp [layout, Columns.field, -Option.or_eq_some_iff, Option.or_some]
  finishes := by
    rintro ⟨uid, _, kind, _, _, _, _, _⟩ complete
    cases uid <;> cases kind <;> simp_all [layout, Columns.field]
  null := by
    intro c among
    simp only [layout, List.mem_cons, List.not_mem_nil, or_false] at among
    rcases among with rfl | rfl | rfl | rfl | rfl | rfl | rfl | rfl
    all_goals rintro _ ⟨⟩ <;> rfl

def Metadata.layout (budget : Nat) : Layout Columns Metadata where
  record := record budget
  columns := [
    ⟨"ref_multiple", Bool, orDefault Draft.flag, (·.refMultiple),
      fun v c => { c with refMultiple := v }, (·.refMultiple), some false⟩,
    ⟨"ref_multiple_content_types", Bool, orDefault Draft.flag, (·.refMultipleTargets),
      fun v c => { c with refMultipleTargets := v }, (·.refMultipleTargets), some false⟩,
    ⟨"allow_rich_text", Bool, orDefault Draft.flag, (·.richText),
      fun v c => { c with richText := v }, (·.richText), some false⟩,
    ⟨"markdown", Bool, orDefault Draft.flag, (·.markdown), fun v c => { c with markdown := v },
      (·.markdown), some false⟩,
    ⟨"extension", Bool, orDefault Draft.flag, (·.isExtension),
      fun v c => { c with isExtension := v }, (·.isExtension), some false⟩,
    ⟨"allow_json_rte", Bool, orDefault Draft.flag, (·.jsonRichText),
      fun v c => { c with jsonRichText := v }, (·.jsonRichText), some false⟩,
    ⟨"default_value", Option Value, (·.nullable (Draft.value budget)), (·.defaultValue),
      fun v c => { c with defaultValue := v }, (·.defaultValue), some none⟩]
  finish c := .ok c.metadata
  fits _ := True

theorem Metadata.layout_lawful (budget : Nat) : (layout budget).Lawful where
  keys := rfl
  distinct := (by decide : keys.Nodup)
  start := by simp [layout, record]
  put := by
    intro c among
    simp only [layout, List.mem_cons, List.not_mem_nil, or_false] at among
    rcases among with rfl | rfl | rfl | rfl | rfl | rfl | rfl
    all_goals exact fun _ _ => rfl
  get_set := by simp [layout]
  get_set_of_ne := by simp [layout]
  finish := by
    rintro ⟨_, _, _, _, _, _, _⟩ ⟨_, _, _, _, _, _, _⟩
    simp [layout, Columns.metadata, -Option.or_eq_some_iff, Option.or_some]
  finishes s _ := ⟨s.metadata, rfl⟩
  null := by
    intro c among
    simp only [layout, List.mem_cons, List.not_mem_nil, or_false] at among
    rcases among with rfl | rfl | rfl | rfl | rfl | rfl | rfl
    all_goals (rintro _ ⟨⟩; rfl)

end ContentModels
