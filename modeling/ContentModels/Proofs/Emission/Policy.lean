import ContentModels.Proofs.Emission.Mirror
import ContentModels.Proofs.Emission.Provenance

set_option autoImplicit false

namespace ContentModels

def Field.leftToPolicy (field : Field) : Bool :=
  field.kind = .reference && !field.isMultiple && !field.metadata.refMultiple

def Field.listed (field : Field) (type : TypeRef) : TypeRef :=
  if field.leftToPolicy then .list type else type

def Member.listedFor (field : Field) (m : Member) : Member :=
  { m with type := field.listed m.type }

def Resolution.listedFor (field : Field) (found : Resolution) : Resolution :=
  { found with type := field.listed found.type }

namespace Emission

open Naming

theorem resolve_alwaysList {c : Context} (declared : c.options.policy = .asDeclared) (field : Field)
    (owner : String) :
    (c.under c.registry .alwaysList).resolver.resolve field owner =
      (c.resolver.resolve field owner).listedFor field := by
  have policy : c.resolver.policy = .asDeclared := declared
  have listed : (c.under c.registry .alwaysList).resolver.policy = .alwaysList := rfl
  unfold Resolver.resolve Resolver.isSequence Resolution.listedFor Field.listed Field.leftToPolicy
  rw [resolver_element_under (fun _ => rfl), policy, listed]
  -- a list that the schema asks for is none that the policy adds
  by_cases reference : field.kind = .reference
  all_goals cases field.isMultiple <;> cases field.metadata.refMultiple <;> simp [reference]

theorem Outline.declare_listed {r s : Resolver}
    (listed : ∀ field owner, s.resolve field owner = (r.resolve field owner).listedFor field)
    (owner unitName : String) (names : MemberNames) (fields : List Field) :
    (declare s owner unitName names fields).1 =
      List.zipWith Member.listedFor fields (declare r owner unitName names fields).1 := by
  induction fields generalizing names with
  | nil => rfl
  | cons field rest ih => simp [declare, ih, listed, Member.listedFor, Resolution.listedFor]

-- The relation of a unit to the one in its place where every reference is a list.
inductive Relisted (c : Context) : GeneratedUnit → GeneratedUnit → Prop
  | same {u : GeneratedUnit} (other : u.kind ≠ .model) : Relisted c u u
  | model {u : GeneratedUnit} {p : Position} {s : Site} (site : At c c.registry.all p s)
      (models : s.Models c u) :
      Relisted c u { u with members := List.zipWith Member.listedFor s.fields u.members }

theorem Sited.relisted {c : Context} (declared : c.options.policy = .asDeclared) {plan : Plan}
    (sited : Sited c c.registry.all plan) :
    plan.Mirrored c (c.under c.registry .alwaysList) (Relisted c) := by
  cases sited with
  | note => trivial
  | blockSet _ member => exact .same (blockSet_kind member)
  | @model p s o nested site outlines =>
    have members : (o.unit (c.under c.registry .alwaysList)).members =
        List.zipWith Member.listedFor s.fields (o.unit c).members := by
      rw [← outlines.fields]
      exact Outline.declare_listed (resolve_alwaysList declared) _ _ _ _
    have unit : o.unit (c.under c.registry .alwaysList) =
        { o.unit c with members := List.zipWith Member.listedFor s.fields (o.unit c).members } := by
      rw [← members]
      rfl
    exact show Relisted c _ _ from unit ▸ .model site outlines.models

theorem generationPlans_under {c : Context} (policy : ReferencePolicy) :
    generationPlans (c.under c.registry policy) = generationPlans c := by
  have definitions : definitionPlan (c.under c.registry policy) = definitionPlan c :=
    funext (definitionPlan_under (fun _ => rfl) policy)
  rw [generationPlans, definitions]
  rfl

theorem generationPlans_sited {c : Context} {plan : Plan} (planned : plan ∈ generationPlans c) :
    plan ∈ supportPlans c ∨ plan.Every (Sited c c.registry.all) := by
  rcases generationPlans_rooted c plan planned with support | ⟨d, registered, rfl⟩
  · exact .inl support
  · exact .inr (definitionPlan_sited registered)

theorem generationPlans_relisted {c : Context} (declared : c.options.policy = .asDeclared)
    {plan : Plan} (planned : plan ∈ generationPlans c) :
    plan.Every (Plan.Mirrored c (c.under c.registry .alwaysList) (Relisted c)) := by
  rcases generationPlans_sited planned with support | sited
  · obtain ⟨u, known, rfl⟩ := List.mem_map.mp support
    exact .unit (.same (supportUnits_kind known))
  · exact sited.mono fun _ => Sited.relisted declared

theorem finished_relisted {c : Context} (declared : c.options.policy = .asDeclared) :
    (finished c).Mirrors (Relisted c) (finished (c.under c.registry .alwaysList)) := by
  rw [finished, finished, generationPlans_under]
  apply Plan.runAll_mirrors _ ⟨.nil, rfl⟩
  intro plan planned l other mirrors
  exact Plan.run_mirrors (fun _ => rfl) (generationPlans_relisted declared planned) mirrors

theorem generate_listed (registry : Registry) (options : Options) :
    ∃ declared listed,
      generate registry { options with policy := .asDeclared } = .ok declared ∧
      generate registry { options with policy := .alwaysList } = .ok listed ∧
      List.Forall₂ (Relisted ⟨registry, { options with policy := .asDeclared }⟩) declared.units
        listed.units ∧
      listed.diagnostics = declared.diagnostics := by
  have mirrors := @finished_relisted ⟨registry, { options with policy := .asDeclared }⟩ rfl
  exact ⟨_, _, generate_eq _ _, generate_eq _ _, mirrors.units,
    congrArg Array.toList mirrors.diagnostics⟩

-- Only the reference without a mark of its own is left to the policy.
example : ((generate
    (.ofList
      [.new "post" "Post"
        [(Field.new "author" .reference).withReference (.single "post"),
          { (Field.new "related" .reference).withReference (.single "post") with
            isMultiple := true },
          .new "body" .text]])
    { supportUnits := false, policy := .alwaysList }).toOption.map
      fun output => output.units.map (·.members.map (·.type))) =
        some [[.list (.named "Post"), .list (.named "Post"), .string]] := by
  decide +kernel

end Emission

end ContentModels
