import Mathlib
import ContentModels.Schema

set_option autoImplicit false

namespace ContentModels

theorem Field.sizeOf_nested (field : Field) : sizeOf field.nested < sizeOf field := by
  cases field
  simp only [Field.mk.sizeOf_spec]
  omega

theorem Field.sizeOf_variants (field : Field) : sizeOf field.variants < sizeOf field := by
  cases field
  simp only [Field.mk.sizeOf_spec]
  omega

theorem Definition.sizeOf_fields (d : Definition) : sizeOf d.fields < sizeOf d := by
  cases d
  simp only [Definition.mk.sizeOf_spec]
  omega

-- Schemas are written in schemas as the nested fields of a field or the fields of a variant.
theorem fields_induction {P : List Field → Prop}
    (step : ∀ fields : List Field,
      (∀ field ∈ fields, P field.nested ∧ ∀ variant ∈ field.variants, P variant.fields) → P fields)
    (fields : List Field) : P fields := by
  apply step
  intro field member
  have within := List.sizeOf_lt_of_mem member
  constructor
  · have smaller := field.sizeOf_nested
    exact fields_induction step field.nested
  · intro variant among
    have smaller := field.sizeOf_variants
    have inside := List.sizeOf_lt_of_mem among
    have last := variant.sizeOf_fields
    exact fields_induction step variant.fields
termination_by sizeOf fields

end ContentModels
