import ContentModels.Proofs.Emission.Placement

set_option autoImplicit false

namespace ContentModels.Emission

inductive Plan.Every (P : Plan → Prop) : Plan → Prop
  | note {diagnostics : List Diagnostic} (own : P (.note diagnostics)) : Every P (.note diagnostics)
  | unit {uid : String} {role : Role} {u : GeneratedUnit} (own : P (.unit uid role u)) :
      Every P (.unit uid role u)
  | model {o : Outline} {nested : List Plan} (own : P (.model o nested))
      (inner : ∀ plan ∈ nested, Every P plan) : Every P (.model o nested)

theorem Plan.Every.mono {P Q : Plan → Prop} (weaker : ∀ plan, P plan → Q plan) {plan : Plan}
    (every : plan.Every P) : plan.Every Q := by
  induction every with
  | note own => exact .note (weaker _ own)
  | unit own => exact .unit (weaker _ own)
  | model own _ ih => exact .model (weaker _ own) ih

inductive Sited (c : Context) (roots : List Definition) : Plan → Prop
  | note (diagnostics : List Diagnostic) : Sited c roots (.note diagnostics)
  | blockSet {p : Position} {s : Site} {field : Field} {u : GeneratedUnit} (site : At c roots p s)
      (member : u ∈ s.blockUnits c field) : Sited c roots (.unit field.uid .blockSet u)
  | model {p : Position} {s : Site} {o : Outline} {nested : List Plan} (site : At c roots p s)
      (outlines : s.Outlines c o nested) : Sited c roots (.model o nested)

variable {c : Context} {roots : List Definition}

theorem Site.Outlines.sited {p : Position} {s : Site} (site : At c roots p s) {o : Outline}
    {nested : List Plan} (outlines : s.Outlines c o nested) :
    (Plan.model o nested).Every (Sited c roots) := by
  refine .model (.model site outlines) fun plan member => ?_
  rcases outlines.within plan member with planned | ⟨diagnostics, rfl⟩
  · cases Site.placed_of_mem planned with
    | note diagnostics => exact .note (.note diagnostics)
    | blockSet _ _ own => exact .unit (.blockSet site own)
    | @model _ _ _ inner nests below =>
      have smaller := List.sizeOf_lt_of_mem member
      exact below.sited (.nested site nests)
  · exact .note (.note diagnostics)
termination_by sizeOf nested
decreasing_by simp only [Plan.model.sizeOf_spec] at smaller; omega

theorem definitionPlan_sited {d : Definition} (root : d ∈ roots) :
    (definitionPlan c d).Every (Sited c roots) := by
  obtain ⟨i, here⟩ := List.mem_iff_getElem?.mp root
  exact (Site.ofDefinition_outlines d).sited (.definition here)

end ContentModels.Emission
