import ContentModels.Proofs.Emission.Placement
import ContentModels.Proofs.Registry

set_option autoImplicit false

namespace ContentModels.Emission

open Naming

theorem finished_consistent (c : Context) : (finished c).Consistent :=
  Plan.runAll_consistent c _ Ledger.empty_consistent

theorem generationPlans_rooted (c : Context) : Rooted c c.registry.all (generationPlans c) := by
  intro plan member
  rcases List.mem_append.mp member with support | definition
  · split at support
    · exact .inl support
    · simp at support
  · obtain ⟨d, among, rfl⟩ := List.mem_map.mp definition
    exact .inr ⟨d, among, rfl⟩

theorem supportUnits_kind {registry : Registry} {path directory : List String} {u : GeneratedUnit}
    (member : u ∈ supportUnits registry path directory) : u.kind ≠ .model := by
  simp only [supportUnits, List.mem_cons, List.not_mem_nil, or_false] at member
  rcases member with rfl | rfl | rfl | rfl | rfl
  all_goals rintro ⟨⟩

theorem blockSet_kind {c : Context} {scope : Scope} {wrapper : String} {tags : List VariantTag}
    {u : GeneratedUnit} (member : u ∈ blockSet c scope wrapper tags) : u.kind ≠ .model := by
  simp only [blockSet, List.mem_cons, List.not_mem_nil, or_false] at member
  rcases member with rfl | rfl | rfl
  all_goals rintro ⟨⟩

section purpose

variable {c : Context} {roots : List Definition} {plans : List Plan}

theorem exists_purpose (rooted : Rooted c roots plans) {u : GeneratedUnit}
    (member : u ∈ (Plan.runAll c plans {}).units.toList) :
    ∃ target, target.unit? c = some u ∧ (Plan.runAll c plans {}).Covers c target ∧
      Purpose c roots plans (Plan.runAll c plans {}) target := by
  rcases (Plan.runAll_traced c plans {}).units u member with before | ⟨target, emits, origin⟩
  · simp at before
  · exact ⟨target, emits, origin.covers, origin.purpose rooted⟩

theorem exists_purpose_of_done (rooted : Rooted c roots plans) {key : Key}
    (done : (Plan.runAll c plans {}).isCompleted key = true) :
    ∃ target, target.key? c = some key ∧
      Purpose c roots plans (Plan.runAll c plans {}) target := by
  rcases (Plan.runAll_traced c plans {}).completed key done with before | ⟨target, keyed, origin⟩
  · simp [Ledger.isCompleted, Ledger.completedAs] at before
  · exact ⟨target, keyed, origin.purpose rooted⟩

structure Proper (c : Context) (u : GeneratedUnit) : Prop where
  namespaced : u.namespacePath = c.namespacePath u.directoryPath
  rooted : c.rootScope <+: u.directoryPath
  directory : ∀ segment ∈ u.directoryPath, Config.isIdentifier segment = true
  name : Config.isIdentifier u.name = true

theorem supportUnits_proper (valid : c.options.Valid) {u : GeneratedUnit}
    (member : u ∈ supportUnits c.registry (c.namespacePath c.rootScope) c.rootScope) :
    Proper c u := by
  obtain ⟨namespaced, placed, _⟩ := mem_supportUnits member
  refine ⟨placed ▸ namespaced, placed ▸ List.prefix_rfl, ?_, ?_⟩
  · simpa [placed, Context.rootScope] using valid.directory
  · simp only [supportUnits, List.mem_cons, List.not_mem_nil, or_false] at member
    rcases member with rfl | rfl | rfl | rfl | rfl <;> dsimp only <;> decide

theorem Site.Plain.blockUnits_proper {s : Site} (plain : s.Plain c) (valid : c.options.Valid)
    {field : Field} {u : GeneratedUnit} (member : u ∈ s.blockUnits c field) : Proper c u := by
  obtain ⟨namespaced, placed, _⟩ := mem_blockSet member
  have below : u.directoryPath = s.below .blocks := placed
  have wrapper := plain.nestedName valid .blocks field
  refine ⟨placed ▸ namespaced, below ▸ (plain.below .blocks).2, below ▸ (plain.below .blocks).1, ?_⟩
  simp only [blockUnits, blockSet, List.mem_cons, List.not_mem_nil, or_false] at member
  rcases member with rfl | rfl | rfl
  · exact isIdentifier_tagEnumName wrapper
  · exact wrapper
  · exact isIdentifier_converterName wrapper

theorem Site.Plain.model_proper {s : Site} (plain : s.Plain c) {o : Outline} {nested : List Plan}
    (outlines : s.Outlines c o nested) : Proper c (o.unit c) := by
  have placed : (o.unit c).directoryPath = s.directory := outlines.scope
  have named : (o.unit c).name = s.name := outlines.name
  exact ⟨rfl, placed ▸ plain.rooted, placed ▸ plain.directory, named ▸ plain.name⟩

theorem Purpose.proper {l : Ledger} {target : Plan} (valid : c.options.Valid)
    (purpose : Purpose c roots plans l target) {u : GeneratedUnit}
    (emits : target.unit? c = some u) : Proper c u := by
  cases purpose with
  | note => cases emits
  | support _ known =>
    cases emits
    exact supportUnits_proper valid known
  | blockSet site _ _ own =>
    cases emits
    exact (site.plain valid).blockUnits_proper valid own
  | model site outlines =>
    cases emits
    exact (site.plain valid).model_proper outlines

theorem Proper.plain {u : GeneratedUnit} (proper : Proper c u) {separator : Char}
    (other : isNameChar separator = false) :
    ∀ segment ∈ u.directoryPath ++ [u.name], separator ∉ segment.toList := by
  intro segment member
  apply notMem_of_isIdentifier _ other
  rcases List.mem_append.mp member with member | member
  · exact proper.directory segment member
  · exact List.mem_singleton.mp member ▸ proper.name

theorem Proper.qualifiedName {u : GeneratedUnit} (proper : Proper c u) :
    u.qualifiedName = c.qualified u.directoryPath u.name :=
  qualifiedName_eq c proper.namespaced

end purpose

variable {c : Context}

theorem finished_proper (valid : c.options.Valid) {u : GeneratedUnit}
    (member : u ∈ (finished c).units.toList) : Proper c u := by
  obtain ⟨target, emits, _, purpose⟩ := exists_purpose (generationPlans_rooted c) member
  exact purpose.proper valid emits

theorem Plan.key_of_emits {c : Context} {l : Ledger} {target : Plan} {u : GeneratedUnit}
    (emits : target.unit? c = some u) (covered : l.Covers c target) :
    ∃ key, target.key? c = some key ∧ l.isCompleted key = true ∧
      key.qualified = u.qualifiedName := by
  cases target with
  | note => cases emits
  | unit uid role own =>
    cases emits
    exact ⟨_, rfl, covered, rfl⟩
  | model o nested =>
    cases emits
    exact ⟨_, rfl, covered, (o.unit_qualifiedName c).symm⟩

theorem exists_unit_of_done (quiet : ¬ (finished c).Colliding) {key : Key}
    (done : (finished c).isCompleted key = true) :
    ∃ u ∈ (finished c).units.toList, ∃ target, target.unit? c = some u ∧
      target.key? c = some key ∧
      Purpose c c.registry.all (generationPlans c) (finished c) target := by
  obtain ⟨u, member, named⟩ := (finished_consistent c).exists_unit done
  obtain ⟨target, emits, covered, purpose⟩ := exists_purpose (generationPlans_rooted c) member
  obtain ⟨other, keyed, emitted, same⟩ := Plan.key_of_emits emits covered
  obtain rfl := (finished_consistent c).key_unique quiet emitted done (same.trans named)
  exact ⟨u, member, target, emits, keyed, purpose⟩

-- What a unit of a generation is made from.
inductive Made (c : Context) : GeneratedUnit → Prop
  | support {u : GeneratedUnit}
      (known : u ∈ supportUnits c.registry (c.namespacePath c.rootScope) c.rootScope) : Made c u
  | blockSet {p : Position} {s : Site} {field : Field} {u : GeneratedUnit}
      (site : At c c.registry.all p s) (declared : field ∈ s.declared) (kind : field.kind = .blocks)
      (own : u ∈ s.blockUnits c field) : Made c u
  | model {p : Position} {s : Site} {o : Outline} {nested : List Plan}
      (site : At c c.registry.all p s) (outlines : s.Outlines c o nested) : Made c (o.unit c)

theorem finished_made {u : GeneratedUnit} (member : u ∈ (finished c).units.toList) : Made c u := by
  obtain ⟨target, emits, _, purpose⟩ := exists_purpose (generationPlans_rooted c) member
  cases purpose with
  | note => cases emits
  | support _ known =>
    cases emits
    exact .support known
  | blockSet site declared kind own =>
    cases emits
    exact .blockSet site declared kind own
  | model site outlines =>
    cases emits
    exact .model site outlines

theorem Made.outlined {u : GeneratedUnit} (made : Made c u) (model : u.kind = .model) :
    ∃ p s o nested, At c c.registry.all p s ∧ s.Outlines c o nested ∧ u = o.unit c := by
  cases made with
  | support known => exact absurd model (supportUnits_kind known)
  | blockSet _ _ _ own => exact absurd model (blockSet_kind own)
  | model site outlines => exact ⟨_, _, _, _, site, outlines, rfl⟩

theorem finished_namespaced {u : GeneratedUnit} (member : u ∈ (finished c).units.toList) :
    u.namespacePath = c.namespacePath u.directoryPath := by
  cases finished_made member with
  | support known =>
    obtain ⟨namespaced, placed, _⟩ := mem_supportUnits known
    rw [namespaced, placed]
  | blockSet _ _ _ own =>
    obtain ⟨namespaced, placed, _⟩ := mem_blockSet own
    rw [namespaced, placed]
  | model => rfl

theorem finished_qualifiedName {u : GeneratedUnit} (member : u ∈ (finished c).units.toList) :
    u.qualifiedName = u.namespaceName ++ "." ++ u.name := by
  simp [GeneratedUnit.qualifiedName, finished_namespaced member, Context.namespacePath]

theorem finished_covers {plan : Plan} (member : plan ∈ generationPlans c) :
    (finished c).Covers c plan :=
  Plan.runAll_covers c _ {} plan member

theorem definition_done {d : Definition} (registered : d ∈ c.registry.all) :
    (finished c).isCompleted ((Outline.ofEntry c d).key c) = true := by
  have planned : definitionPlan c d ∈ generationPlans c :=
    List.mem_append_right _ (List.mem_map_of_mem registered)
  exact finished_covers planned

theorem exists_named (valid : c.options.Valid) {key : Key} {scope : Scope} {name : String}
    (done : (finished c).isCompleted key = true) (named : key.qualified = c.qualified scope name)
    (directory : ∀ segment ∈ scope, Config.isIdentifier segment = true)
    (last : Config.isIdentifier name = true) :
    ∃ v ∈ (finished c).units.toList, v.name = name ∧ v.namespacePath = c.namespacePath scope := by
  -- the unit of the key may have lost the name, but then another unit has it
  obtain ⟨v, member, same⟩ := (finished_consistent c).exists_unit done
  have proper := finished_proper valid member
  have plain : ∀ segment ∈ scope ++ [name], '.' ∉ segment.toList := by
    intro segment among
    apply notMem_of_isIdentifier _ (by decide)
    rcases List.mem_append.mp among with among | among
    · exact directory segment among
    · exact List.mem_singleton.mp among ▸ last
  rw [named, proper.qualifiedName] at same
  obtain ⟨placed, called⟩ := c.qualified_injective (proper.plain (by decide)) plain same
  exact ⟨v, member, called, placed ▸ proper.namespaced⟩

def Site.Grown (c : Context) (s : Site) (l : Ledger) : Prop :=
  ∃ o nested, s.Outlines c o nested ∧ l.CoversNested c (.model o nested)

theorem Site.Grown.covers {s : Site} {l : Ledger} (grown : s.Grown c l) : s.Covered c l := by
  obtain ⟨o, nested, outlines, covered⟩ := grown
  exact fun plan member => covered.1 plan (outlines.covers member)

theorem Purpose.ofDefinition (coherent : c.registry.Coherent) {d : Definition}
    (registered : d ∈ c.registry.all) {plans : List Plan} {l : Ledger} {target : Plan}
    (purpose : Purpose c c.registry.all plans l target)
    (keyed : target.key? c = some ((Outline.ofEntry c d).key c)) :
    ∃ o nested, target = .model o nested ∧ (Site.ofDefinition c d).Outlines c o nested ∧
      l.CoversNested c target := by
  cases purpose with
  | note => cases keyed
  | support => cases congrArg Key.role (Option.some.inj keyed)
  | blockSet => cases congrArg Key.role (Option.some.inj keyed)
  | @model p s o nested site outlines inner =>
    -- only definitions are emitted as entries, and each of them has a uid of its own
    have same : o.key c = (Outline.ofEntry c d).key c := Option.some.inj keyed
    have role : s.role = .entry := outlines.role ▸ congrArg Key.role same
    have uid : s.uid = d.uid := outlines.uid ▸ congrArg Key.uid same
    cases site with
    | @definition i other root =>
      obtain ⟨j, here⟩ := List.mem_iff_getElem?.mp registered
      obtain rfl := coherent.position_unique root here uid
      obtain rfl := Option.some.inj (root.symm.trans here)
      exact ⟨o, nested, rfl, outlines, inner⟩
    | nested _ nests =>
      cases nests with
      | group => cases role
      | variant => cases role

theorem definition_grown (coherent : c.registry.Coherent) {d : Definition}
    (registered : d ∈ c.registry.all) : (Site.ofDefinition c d).Grown c (finished c) := by
  obtain ⟨target, keyed, purpose⟩ :=
    exists_purpose_of_done (generationPlans_rooted c) (definition_done registered)
  obtain ⟨o, nested, rfl, outlines, inner⟩ := purpose.ofDefinition coherent registered keyed
  exact ⟨o, nested, outlines, inner⟩

end ContentModels.Emission
