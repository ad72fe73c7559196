import ContentModels.Proofs.Emission.Identity
import ContentModels.Proofs.Emission.Independence
import ContentModels.Proofs.Emission.Mirror

set_option autoImplicit false

namespace ContentModels

open Naming

theorem Registry.Built.lookup_of_perm {r other : Registry} (built : r.Built) (built' : other.Built)
    (same : r.all.Perm other.all) (uid : String) : other.lookup uid = r.lookup uid := by
  ext d
  rw [built'.coherent.lookup_eq_some, built.coherent.lookup_eq_some, same.mem_iff]

namespace Emission

-- What is nested in a type of the root scope is placed in directories that start with its name.
def Belongs (c : Context) (root : String) (scope : Scope) (name : String) : Prop :=
  (scope = c.rootScope ∧ name = root) ∨ ∃ role, nestedScope c.rootScope root role <+: scope

def Territory (c : Context) (root qualified : String) : Prop :=
  ∃ scope name, (∀ segment ∈ scope ++ [name], '.' ∉ segment.toList) ∧
    Belongs c root scope name ∧ qualified = c.qualified scope name

section territory

variable {c : Context}

theorem Belongs.below {root name inner : String} {scope : Scope}
    (belongs : Belongs c root scope name) (role : NestedRole) :
    Belongs c root (nestedScope scope name role) inner := by
  rcases belongs with ⟨rfl, rfl⟩ | ⟨first, above⟩
  · exact .inr ⟨role, List.prefix_rfl⟩
  · exact .inr ⟨first, above.trans (List.prefix_append _ _)⟩

theorem Belongs.unique {root other name : String} {scope : Scope}
    (first : Belongs c root scope name) (second : Belongs c other scope name) : root = other := by
  have deeper {root : String} {role : NestedRole} :
      ¬ nestedScope c.rootScope root role <+: c.rootScope := by
    intro above
    have lengths := above.length_le
    simp [nestedScope] at lengths
  rcases first with ⟨rfl, rfl⟩ | ⟨role, above⟩
  · rcases second with ⟨_, same⟩ | ⟨_, above⟩
    · exact same
    · exact absurd above deeper
  · rcases second with ⟨rfl, _⟩ | ⟨otherRole, above'⟩
    · exact absurd above deeper
    · have lengths : (nestedScope c.rootScope root role).length =
          (nestedScope c.rootScope other otherRole).length := by
        simp [nestedScope]
      have same := (List.prefix_of_prefix_length_le above above' lengths.le).eq_of_length lengths
      exact (nestedScope_injective same).2.1

theorem Territory.unique {root other qualified : String} (first : Territory c root qualified)
    (second : Territory c other qualified) : root = other := by
  obtain ⟨scope, name, plain, belongs, rfl⟩ := first
  obtain ⟨scope', name', plain', belongs', same⟩ := second
  obtain ⟨rfl, rfl⟩ := c.qualified_injective plain plain' same
  exact belongs.unique belongs'

theorem Proper.territory {u : GeneratedUnit} (proper : Proper c u) {root : String}
    (belongs : Belongs c root u.directoryPath u.name) : Territory c root u.qualifiedName :=
  ⟨_, _, proper.plain (by decide), belongs, proper.qualifiedName⟩

theorem At.belongs {d : Definition} {p : Position} {s : Site} (site : At c [d] p s) :
    Belongs c (definitionName d.title d.uid) s.directory s.name := by
  induction site with
  | definition root =>
    obtain rfl := List.mem_singleton.mp (List.mem_of_getElem? root)
    exact .inl ⟨rfl, rfl⟩
  | nested _ nests ih =>
    cases nests with
    | group => exact ih.below .group
    | variant => exact ih.below .blocks

variable (valid : c.options.Valid)

include valid

theorem definitionPlan_within (d : Definition) :
    (definitionPlan c d).Within c (Territory c (definitionName d.title d.uid)) := by
  apply (definitionPlan_sited (List.mem_singleton_self d)).mono
  intro plan sited key keyed
  cases sited with
  | note => cases keyed
  | blockSet site member =>
    cases keyed
    have proper := (site.plain valid).blockUnits_proper valid member
    have placed : _ = Site.below _ .blocks := (mem_blockSet member).2.1
    exact proper.territory (placed ▸ site.belongs.below .blocks)
  | @model p s o nested site outlines =>
    cases keyed
    have proper := (site.plain valid).model_proper outlines
    have belongs := site.belongs
    rw [← outlines.name, ← outlines.scope] at belongs
    rw [Outline.key_qualified, ← Outline.unit_qualifiedName]
    exact proper.territory belongs

theorem supportPlan_within {u : GeneratedUnit}
    (known : u ∈ supportUnits c.registry (c.namespacePath c.rootScope) c.rootScope) :
    (Plan.unit u.name .support u).Within c (Territory c u.name) := by
  refine .unit fun key keyed => ?_
  cases keyed
  exact (supportUnits_proper valid known).territory (.inl ⟨(mem_supportUnits known).2.1, rfl⟩)

end territory

theorem Plan.apart_of_ne {c : Context} {plan other : Plan} {root otherRoot : String}
    (within : plan.Within c (Territory c root)) (within' : other.Within c (Territory c otherRoot))
    (different : root ≠ otherRoot) : plan.Apart c other := by
  refine ⟨_, within, within'.mono fun target own key keyed foreign => ?_⟩
  exact different (Territory.unique foreign (own key keyed))

def supportNames : List String := (supportUnits .empty [] []).map (·.name)

theorem supportUnits_map_name (registry : Registry) (path directory : List String) :
    (supportUnits registry path directory).map (·.name) = supportNames := rfl

-- Whether no two definitions derive one name, and none the name of a support unit.
structure Unmistaken (registry : Registry) : Prop where
  distinct : (registry.all.map fun d => definitionName d.title d.uid).Nodup
  unsupported : ∀ d ∈ registry.all, definitionName d.title d.uid ∉ supportNames

theorem Unmistaken.of_perm {registry other : Registry} (unmistaken : Unmistaken registry)
    (same : registry.all.Perm other.all) : Unmistaken other where
  distinct := (same.map _).nodup_iff.mp unmistaken.distinct
  unsupported d registered := unmistaken.unsupported d (same.mem_iff.mpr registered)

theorem generationPlans_apart {c : Context} (valid : c.options.Valid)
    (unmistaken : Unmistaken c.registry) : (generationPlans c).Pairwise (Plan.Apart c) := by
  have support : (supportPlans c).Pairwise (Plan.Apart c) := by
    apply List.pairwise_map.mpr
    have names : (supportUnits c.registry (c.namespacePath c.rootScope) c.rootScope).Pairwise
        fun u v => u.name ≠ v.name := List.pairwise_map.mp supportUnits_names
    exact names.imp_of_mem fun first second different =>
      Plan.apart_of_ne (supportPlan_within valid first) (supportPlan_within valid second) different
  have definitions : (c.registry.all.map (definitionPlan c)).Pairwise (Plan.Apart c) := by
    apply List.pairwise_map.mpr
    exact (List.pairwise_map.mp unmistaken.distinct).imp fun different =>
      Plan.apart_of_ne (definitionPlan_within valid _) (definitionPlan_within valid _) different
  refine List.pairwise_append.mpr ⟨?_, definitions, ?_⟩
  · split
    · exact support
    · exact .nil
  · intro plan first other second
    obtain ⟨d, registered, rfl⟩ := List.mem_map.mp second
    split at first
    · obtain ⟨u, known, rfl⟩ := List.mem_map.mp first
      have named : u.name ∈ supportNames :=
        supportUnits_map_name c.registry _ _ ▸ List.mem_map_of_mem known
      exact Plan.apart_of_ne (supportPlan_within valid known) (definitionPlan_within valid d)
        (ne_of_mem_of_not_mem named (unmistaken.unsupported d registered))
    · exact absurd first List.not_mem_nil

theorem finished_apart {c : Context} (valid : c.options.Valid)
    (unmistaken : Unmistaken c.registry) :
    (finished c).units.toList =
        (if c.options.supportUnits then
          supportUnits c.registry (c.namespacePath c.rootScope) c.rootScope else []) ++
        c.registry.all.flatMap (fun d => (Plan.alone c (definitionPlan c d)).units.toList) ∧
      (finished c).diagnostics.toList =
        c.registry.all.flatMap fun d => (Plan.alone c (definitionPlan c d)).diagnostics.toList := by
  have fresh : ∀ plan ∈ generationPlans c,
      ∃ among, plan.Within c among ∧ Ledger.Alike among {} {} := by
    intro plan planned
    rcases generationPlans_rooted c plan planned with support | ⟨d, _, rfl⟩
    · obtain ⟨u, known, rfl⟩ := List.mem_map.mp support
      exact ⟨_, supportPlan_within valid known, .refl _⟩
    · exact ⟨_, definitionPlan_within valid d, .refl _⟩
  obtain ⟨units, diagnostics⟩ := Plan.runAll_adds (generationPlans_apart valid unmistaken) fresh
  rw [finished, units, diagnostics]
  simp only [generationPlans, supportPlans]
  cases c.options.supportUnits
  all_goals simp [List.flatMap_map, Plan.alone_unit]

def rearmed (arms : List (String × String)) (u : GeneratedUnit) : GeneratedUnit :=
  match u.body with
  | .converter (.contentTypeUid _) => { u with body := .converter (.contentTypeUid arms) }
  | _ => u

theorem alone_rearmed {c : Context} {d : Definition} (arms : List (String × String))
    {u : GeneratedUnit} (member : u ∈ (Plan.alone c (definitionPlan c d)).units.toList) :
    rearmed arms u = u := by
  have rooted : Rooted c [d] [definitionPlan c d] := by
    intro plan planned
    exact .inr ⟨d, List.mem_singleton_self d, List.mem_singleton.mp planned⟩
  rw [Plan.alone, ← Plan.runAll_nil c (Plan.run c (definitionPlan c d) {}), ← Plan.runAll_cons]
    at member
  obtain ⟨target, emits, _, purpose⟩ := exists_purpose rooted member
  cases purpose with
  | note => cases emits
  | support asked => cases List.mem_singleton.mp asked
  | blockSet _ _ _ own =>
    cases emits
    simp only [Site.blockUnits, blockSet, List.mem_cons, List.not_mem_nil, or_false] at own
    rcases own with rfl | rfl | rfl <;> rfl
  | model =>
    cases emits
    rfl

theorem Outline.declare_congr {r s : Resolver}
    (same : ∀ field owner, s.resolve field owner = r.resolve field owner) (owner unitName : String)
    (names : MemberNames) (fields : List Field) :
    declare s owner unitName names fields = declare r owner unitName names fields := by
  induction fields generalizing names with
  | nil => rfl
  | cons field rest ih => simp [declare, same, ih]

section reordered

variable {c : Context} {registry : Registry}
  (same : ∀ uid, registry.lookup uid = c.registry.lookup uid)

include same

theorem Outline.unit_under (o : Outline) :
    o.unit (c.under registry c.options.policy) = o.unit c := by
  have resolve (field : Field) (owner : String) :
      (c.under registry c.options.policy).resolver.resolve field owner =
        c.resolver.resolve field owner := by
    unfold Resolver.resolve
    rw [resolver_element_under same]
    rfl
  have declared : o.declared (c.under registry c.options.policy) = o.declared c :=
    declare_congr resolve _ _ _ _
  simp only [Outline.unit, declared]
  rfl

theorem alone_under (d : Definition) :
    (Plan.alone c (definitionPlan c d)).Mirrors Eq
      (Plan.alone (c.under registry c.options.policy)
        (definitionPlan (c.under registry c.options.policy) d)) := by
  rw [definitionPlan_under same]
  apply Plan.run_mirrors same _ ⟨.nil, rfl⟩
  apply (definitionPlan_sited (List.mem_singleton_self d)).mono
  intro plan _
  cases plan with
  | note => trivial
  | unit => rfl
  | model o => exact (Outline.unit_under same o).symm

end reordered

theorem generate_reordered {registry other : Registry} (built : registry.Built)
    (built' : other.Built) (same : registry.all.Perm other.all) {options : Options}
    (valid : options.Valid) (unmistaken : Unmistaken registry) :
    ∃ output output', generate registry options = .ok output ∧
      generate other options = .ok output' ∧
      (output.units.map (rearmed (contentTypeArms other))).Perm output'.units ∧
      output.diagnostics.Perm output'.diagnostics := by
  let c : Context := ⟨registry, options⟩
  let c' : Context := ⟨other, options⟩
  have lookups : ∀ uid, other.lookup uid = c.registry.lookup uid := built.lookup_of_perm built' same
  have alone (d : Definition) : (Plan.alone c (definitionPlan c d)).Mirrors Eq
      (Plan.alone c' (definitionPlan c' d)) := alone_under lookups d
  obtain ⟨units, diagnostics⟩ := finished_apart (c := c) valid unmistaken
  obtain ⟨units', diagnostics'⟩ := finished_apart (c := c') valid (unmistaken.of_perm same)
  have emitted (d : Definition) : (Plan.alone c' (definitionPlan c' d)).units.toList =
      (Plan.alone c (definitionPlan c d)).units.toList :=
    (List.forall₂_eq_eq_eq ▸ (alone d).units : _ = _).symm
  let nested := registry.all.flatMap fun d => (Plan.alone c (definitionPlan c d)).units.toList
  have kept : nested.map (rearmed (contentTypeArms other)) = nested := by
    refine (List.map_congr_left fun u member => ?_).trans (List.map_id nested)
    obtain ⟨d, _, own⟩ := List.mem_flatMap.mp member
    exact alone_rearmed _ own
  refine ⟨_, _, generate_eq registry options, generate_eq other options, ?_, ?_⟩
  · change ((finished c).units.toList.map _).Perm (finished c').units.toList
    rw [units, units', List.map_append, kept]
    simp only [emitted]
    refine List.Perm.append (.of_eq ?_) (same.flatMap_right _)
    split <;> rfl
  · change (finished c).diagnostics.toList.Perm (finished c').diagnostics.toList
    simp only [diagnostics, diagnostics', (alone _).diagnostics]
    exact same.flatMap_right _

def magazineParts : List Definition :=
  [.new "page" "Page"
      [(Field.new "rows" .blocks).withBlocks [(Definition.new "meta" "Meta" []).referencing "seo"]],
    (Definition.new "seo" "SEO" [.new "robots" .text]).withOrigin .globalField,
    .new "author" "Author" [(Field.new "page" .reference).withReference (.single "page")]]

theorem magazineParts_reordered :
    (Registry.ofList magazineParts).Built ∧ (Registry.ofList magazineParts.reverse).Built ∧
      (Registry.ofList magazineParts).all.Perm (Registry.ofList magazineParts.reverse).all ∧
      Options.Valid {} ∧ Unmistaken (.ofList magazineParts) ∧
      ∃ output output', generate (.ofList magazineParts) {} = .ok output ∧
        generate (.ofList magazineParts.reverse) {} = .ok output' ∧
        (output.units.map
          (rearmed (contentTypeArms (.ofList magazineParts.reverse)))).Perm output'.units ∧
        output.diagnostics.Perm output'.diagnostics ∧
        (output.units.find? (·.name = embeddedObjectConverter)).map (·.body) =
          some (.converter (.contentTypeUid [("page", "Page"), ("author", "Author")])) ∧
        (output'.units.find? (·.name = embeddedObjectConverter)).map (·.body) =
          some (.converter (.contentTypeUid [("author", "Author"), ("page", "Page")])) := by
  have built (parts : List Definition) : (Registry.ofList parts).Built := .extend .empty parts
  have all : (Registry.ofList magazineParts).all = magazineParts := rfl
  have reversed : (Registry.ofList magazineParts.reverse).all = magazineParts.reverse := rfl
  have same : (Registry.ofList magazineParts).all.Perm
      (Registry.ofList magazineParts.reverse).all := by
    rw [all, reversed]
    exact (List.reverse_perm _).symm
  have unmistaken : Unmistaken (.ofList magazineParts) := by
    constructor
    · rw [all]
      decide +kernel
    · rw [all]
      decide +kernel
  obtain ⟨output, output', generated, generated', units, diagnostics⟩ :=
    generate_reordered (built _) (built _) same Options.default_valid unmistaken
  have arms : (generate (.ofList magazineParts) {}).toOption.map (fun output =>
      (output.units.find? (·.name = embeddedObjectConverter)).map (·.body)) =
      some (some (.converter (.contentTypeUid [("page", "Page"), ("author", "Author")]))) := by
    decide +kernel
  have arms' : (generate (.ofList magazineParts.reverse) {}).toOption.map (fun output =>
      (output.units.find? (·.name = embeddedObjectConverter)).map (·.body)) =
      some (some (.converter (.contentTypeUid [("author", "Author"), ("page", "Page")]))) := by
    decide +kernel
  rw [generated] at arms
  rw [generated'] at arms'
  exact ⟨built _, built _, same, Options.default_valid, unmistaken, output, output', generated,
    generated', units, diagnostics, Option.some.inj arms, Option.some.inj arms'⟩

end Emission

end ContentModels
