import ContentModels.Proofs.Emission.Extent
import ContentModels.Proofs.Resolution

set_option autoImplicit false

namespace ContentModels

namespace Emission

open Naming

def Context.under (c : Context) (registry : Registry) (policy : ReferencePolicy) : Context :=
  ⟨registry, { c.options with policy := policy }⟩

section plans

variable {c : Context} {registry : Registry}
  (same : ∀ uid, registry.lookup uid = c.registry.lookup uid) (policy : ReferencePolicy)

include same

theorem variantPlan_under {v : Definition}
    (inner : ∀ scope owner, nestedPlans (c.under registry policy) scope owner v.fields =
      nestedPlans c scope owner v.fields) (scope : Scope) (wrapper : String) :
    variantPlan (c.under registry policy) scope wrapper v = variantPlan c scope wrapper v := by
  cases origin : v.referenceTo with
  | some globalField =>
    have found : (c.under registry policy).registry.lookup globalField =
        c.registry.lookup globalField := same globalField
    rw [variantPlan_some _ origin, variantPlan_some _ origin, found]
    rfl
  | none =>
    rw [variantPlan_none _ origin, variantPlan_none _ origin]
    exact congrArg (Plan.model _) (inner _ _)

theorem variantsPlans_under (b : BlockField) (variants : List Definition)
    (inner : ∀ v ∈ variants, ∀ scope owner,
      nestedPlans (c.under registry policy) scope owner v.fields =
        nestedPlans c scope owner v.fields)
    (seen : List String) (names : MemberNames) :
    variantsPlans (c.under registry policy) b seen names variants =
      variantsPlans c b seen names variants := by
  induction variants generalizing seen names with
  | nil => rfl
  | cons v rest ih =>
    have later := ih fun other member => inner other (List.mem_cons_of_mem v member)
    simp only [variantsPlans, later, variantPlan_under same policy (inner v List.mem_cons_self)]

theorem fieldPlans_under {field : Field}
    (nested : ∀ scope owner, nestedPlans (c.under registry policy) scope owner field.nested =
      nestedPlans c scope owner field.nested)
    (variants : ∀ v ∈ field.variants, ∀ scope owner,
      nestedPlans (c.under registry policy) scope owner v.fields =
        nestedPlans c scope owner v.fields)
    (scope : Scope) (owner : String) (role : NestedRole) :
    fieldPlans (c.under registry policy) scope owner role field =
      fieldPlans c scope owner role field := by
  by_cases nests : field.kind = role.kind
  · cases role with
    | blocks =>
      rw [fieldPlans_blocks _ nests, fieldPlans_blocks _ nests, BlockField.plans, BlockField.plans,
        variantsPlans_under same policy _ _ variants]
      rfl
    | group =>
      rw [fieldPlans_group _ nests, fieldPlans_group _ nests]
      exact congrArg (fun plans => [Plan.model _ plans]) (nested _ _)
  · rw [fieldPlans_other _ nests, fieldPlans_other _ nests]

theorem fieldsPlans_under (fields : List Field)
    (inner : ∀ field ∈ fields,
      (∀ scope owner, nestedPlans (c.under registry policy) scope owner field.nested =
        nestedPlans c scope owner field.nested) ∧
      ∀ v ∈ field.variants, ∀ scope owner,
        nestedPlans (c.under registry policy) scope owner v.fields =
          nestedPlans c scope owner v.fields)
    (scope : Scope) (owner : String) (role : NestedRole) :
    fieldsPlans (c.under registry policy) scope owner role fields =
      fieldsPlans c scope owner role fields := by
  induction fields with
  | nil => rfl
  | cons field rest ih =>
    obtain ⟨nested, variants⟩ := inner field List.mem_cons_self
    rw [fieldsPlans, fieldsPlans, fieldPlans_under same policy nested variants,
      ih fun other member => inner other (List.mem_cons_of_mem field member)]

theorem nestedPlans_under (fields : List Field) :
    ∀ scope owner, nestedPlans (c.under registry policy) scope owner fields =
      nestedPlans c scope owner fields := by
  induction fields using fields_induction with
  | step fields inner =>
    intro scope owner
    rw [nestedPlans, nestedPlans, fieldsPlans_under same policy fields inner,
      fieldsPlans_under same policy fields inner]

theorem definitionPlan_under (d : Definition) :
    definitionPlan (c.under registry policy) d = definitionPlan c d :=
  congrArg (Plan.model _) (nestedPlans_under same policy d.fields _ _)

end plans

-- Ledgers that agree in everything but the units, which are related one by one.
structure Ledger.Mirrors (R : GeneratedUnit → GeneratedUnit → Prop) (l other : Ledger) : Prop where
  units : List.Forall₂ R l.units.toList other.units.toList
  rest : other = { l with units := other.units }

namespace Ledger.Mirrors

variable {R : GeneratedUnit → GeneratedUnit → Prop} {l other : Ledger}

theorem isCompleted (mirrors : l.Mirrors R other) (key : Key) :
    other.isCompleted key = l.isCompleted key := by
  rw [mirrors.rest]
  rfl

theorem claimed (mirrors : l.Mirrors R other) : other.claimed = l.claimed := by
  rw [mirrors.rest]

theorem diagnostics (mirrors : l.Mirrors R other) : other.diagnostics = l.diagnostics := by
  rw [mirrors.rest]

theorem report (mirrors : l.Mirrors R other) (diagnostics : List Diagnostic) :
    (l.report diagnostics).Mirrors R (other.report diagnostics) := by
  refine ⟨mirrors.units, ?_⟩
  simp only [Ledger.report]
  rw [mirrors.rest]

theorem settle (mirrors : l.Mirrors R other) (key : Key) :
    (l.settle key).Mirrors R (other.settle key) := by
  refine ⟨by simpa using mirrors.units, ?_⟩
  unfold Ledger.settle
  rw [mirrors.isCompleted]
  split
  · exact mirrors.rest
  · rw [mirrors.rest]
    rfl

theorem push (mirrors : l.Mirrors R other) (key : Key) {u v : GeneratedUnit} (related : R u v)
    (named : v.qualifiedName = u.qualifiedName) :
    (l.push key u).Mirrors R (other.push key v) := by
  unfold Ledger.push
  rw [mirrors.claimed, named]
  cases l.claimed[u.qualifiedName]? with
  | none =>
    refine ⟨by simpa using List.rel_append mirrors.units (.cons related .nil), ?_⟩
    rw [mirrors.rest]
  | some owner =>
    dsimp only
    split
    · exact mirrors
    · exact mirrors.report _

end Ledger.Mirrors

def Plan.Mirrored (c d : Context) (R : GeneratedUnit → GeneratedUnit → Prop) : Plan → Prop
  | .note _ => True
  | .unit _ _ u => R u u
  | .model o _ => R (o.unit c) (o.unit d)

theorem Outline.declare_under {r s : Resolver}
    (same : ∀ field owner, (s.resolve field owner).diagnostic = (r.resolve field owner).diagnostic)
    (owner unitName : String) (names : MemberNames) (fields : List Field) :
    (declare s owner unitName names fields).2 = (declare r owner unitName names fields).2 := by
  induction fields generalizing names with
  | nil => rfl
  | cons field rest ih => simp [declare, same, ih]

theorem resolver_element_under {c : Context} {registry : Registry}
    (same : ∀ uid, registry.lookup uid = c.registry.lookup uid) (policy : ReferencePolicy)
    (field : Field) (owner : String) :
    (c.under registry policy).resolver.element field owner = c.resolver.element field owner := by
  have lookup : ∀ uid, (c.under registry policy).resolver.registry.lookup uid =
      c.resolver.registry.lookup uid := same
  have reference : (c.under registry policy).resolver.reference field owner =
      c.resolver.reference field owner := by
    simp only [Resolver.reference, lookup]
  unfold Resolver.element
  cases field.kind <;> simp only [reference]
  all_goals rfl

section runs

variable {c : Context} {registry : Registry}
  (same : ∀ uid, registry.lookup uid = c.registry.lookup uid) {policy : ReferencePolicy}
  {R : GeneratedUnit → GeneratedUnit → Prop}

include same

theorem Outline.declared_under (o : Outline) :
    (o.declared (c.under registry policy)).2 = (o.declared c).2 := by
  apply declare_under
  intro field owner
  rw [Resolver.resolve_diagnostic, Resolver.resolve_diagnostic, resolver_element_under same]

omit same in
theorem Plan.runAll_mirrors {plans : List Plan}
    (inner : ∀ plan ∈ plans, ∀ {l other : Ledger}, l.Mirrors R other →
      (run c plan l).Mirrors R (run (c.under registry policy) plan other))
    {l other : Ledger} (mirrors : l.Mirrors R other) :
    (runAll c plans l).Mirrors R (runAll (c.under registry policy) plans other) := by
  induction plans generalizing l other with
  | nil => exact mirrors
  | cons plan rest ih =>
    rw [runAll_cons, runAll_cons]
    exact ih (fun later member => inner later (List.mem_cons_of_mem plan member))
      (inner plan List.mem_cons_self mirrors)

theorem Plan.run_mirrors {plan : Plan}
    (every : plan.Every (Plan.Mirrored c (c.under registry policy) R)) {l other : Ledger}
    (mirrors : l.Mirrors R other) :
    (run c plan l).Mirrors R (run (c.under registry policy) plan other) := by
  induction every generalizing l other with
  | note => exact mirrors.report _
  | @unit uid role u related =>
    rw [run_unit, run_unit, Ledger.pushOnce, Ledger.pushOnce, mirrors.isCompleted]
    split
    · exact mirrors
    · exact (mirrors.settle _).push _ related rfl
  | @model o nested related _ ih =>
    have key : o.key (c.under registry policy) = o.key c := rfl
    have named : (o.unit (c.under registry policy)).qualifiedName = (o.unit c).qualifiedName := by
      rw [Outline.unit_qualifiedName, Outline.unit_qualifiedName]
      rfl
    by_cases done : l.isCompleted (o.key c) = true
    · rw [run_model_done c done, run_model_done _ (by rw [mirrors.isCompleted, key, done])]
      exact mirrors
    · rw [run_model c done, run_model _ (by rw [mirrors.isCompleted, key]; exact done), key,
        o.declared_under same]
      have inner := runAll_mirrors ih
        (mirrors.report (unnamed o.label o.name (o.key c).qualified))
      exact ((inner.report _).push _ related named).settle _

end runs

end Emission

end ContentModels
