import ContentModels.Proofs.Emission.Generation

set_option autoImplicit false

namespace ContentModels.Emission

open Naming

namespace Outline

theorem declare_wires (r : Resolver) (owner unitName : String) (names : MemberNames)
    (fields : List Field) :
    (declare r owner unitName names fields).1.map (fun m => (m.wire, m.type)) =
      fields.map fun field => (field.uid, (r.resolve field owner).type) := by
  induction fields generalizing names with
  | nil => rfl
  | cons field rest ih => simp [declare, ih]

theorem exists_declared {r : Resolver} {owner unitName : String} {names : MemberNames}
    {fields : List Field} {m : Member} (member : m ∈ (declare r owner unitName names fields).1) :
    ∃ field ∈ fields, ∃ n, m =
      ⟨MemberNames.candidate (propertyName field.uid) n, field.uid, (r.resolve field owner).type,
        accessor field⟩ := by
  induction fields generalizing names with
  | nil => simp [declare] at member
  | cons field rest ih =>
    rcases List.mem_cons.mp member with rfl | later
    · exact ⟨field, List.mem_cons_self, _, rfl⟩
    · obtain ⟨other, among, rest⟩ := ih later
      exact ⟨other, List.mem_cons_of_mem field among, rest⟩

end Outline

namespace Site

structure Models (c : Context) (s : Site) (u : GeneratedUnit) : Prop where
  kind : u.kind = .model
  name : u.name = s.name
  directory : u.directoryPath = s.directory
  namespaced : u.namespacePath = c.options.namespaceName :: s.directory
  members : u.members.map (fun m => (m.wire, m.type)) =
    s.fields.map fun field => (field.uid, (c.resolver.resolve field s.owner).type)

structure HoldsBlocks (c : Context) (s : Site) (field : Field) (u : GeneratedUnit) : Prop where
  directory : u.directoryPath = s.directory ++ [nestedDirectory s.name .blocks]
  namespaced : u.namespacePath = c.options.namespaceName :: u.directoryPath
  named : (u.kind, u.name) ∈
    [(.tagEnum, tagEnumName (s.nestedName c .blocks field)),
      (.wrapper, s.nestedName c .blocks field),
      (.converter, converterName (s.nestedName c .blocks field))]

theorem Outlines.models {c : Context} {s : Site} {o : Outline} {nested : List Plan}
    (outlines : s.Outlines c o nested) : s.Models c (o.unit c) where
  kind := rfl
  name := outlines.name
  directory := outlines.scope
  namespaced := by rw [← outlines.scope]; rfl
  members := by
    rw [← outlines.fields, ← outlines.owner]
    exact Outline.declare_wires _ _ _ _ _

theorem holdsBlocks {c : Context} {s : Site} {field : Field} {u : GeneratedUnit}
    (member : u ∈ s.blockUnits c field) : s.HoldsBlocks c field u := by
  obtain ⟨namespaced, placed, _⟩ := mem_blockSet member
  refine ⟨placed, by rw [namespaced, placed]; rfl, ?_⟩
  simp only [blockUnits, blockSet, List.mem_cons, List.not_mem_nil, or_false] at member
  rcases member with rfl | rfl | rfl
  · exact List.mem_cons_self
  · exact List.mem_cons_of_mem _ List.mem_cons_self
  · exact List.mem_cons_of_mem _ (List.mem_cons_of_mem _ List.mem_cons_self)

end Site

inductive Comes (c : Context) (u : GeneratedUnit) : Prop
  | support (wanted : c.options.supportUnits = true)
      (known : u ∈ supportUnits c.registry (c.namespacePath c.rootScope) c.rootScope)
  | schema {p : Position} {s : Site} (site : At c c.registry.all p s) (models : s.Models c u)
  | blocks {p : Position} {s : Site} {field : Field} (site : At c c.registry.all p s)
      (declared : field ∈ s.declared) (kind : field.kind = .blocks)
      (holds : s.HoldsBlocks c field u)

theorem generate_comes (registry : Registry) (options : Options) :
    ∃ output, generate registry options = .ok output ∧
      ∀ u ∈ output.units, Comes ⟨registry, options⟩ u := by
  refine ⟨_, generate_eq registry options, ?_⟩
  intro u member
  obtain ⟨target, emits, _, purpose⟩ := exists_purpose (generationPlans_rooted _) member
  cases purpose with
  | note => cases emits
  | support asked known =>
    cases emits
    apply Comes.support _ known
    by_contra unwanted
    simp_all [generationPlans, definitionPlan, Outline.plan]
  | blockSet site declared kind own =>
    cases emits
    exact .blocks site declared kind (Site.holdsBlocks own)
  | model site outlines =>
    cases emits
    exact .schema site outlines.models

end ContentModels.Emission
