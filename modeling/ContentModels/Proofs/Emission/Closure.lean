import ContentModels.Proofs.Emission.Provenance

set_option autoImplicit false

namespace ContentModels

open Naming

def TypeRef.names : TypeRef → List String
  | .named name => [name]
  | .list item => item.names
  | _ => []

namespace GeneratedUnit

-- The generated types a unit mentions. Only the interfaces of entries are declared elsewhere.
def references (u : GeneratedUnit) : List String :=
  u.members.flatMap (·.type.names) ++
    match u.body with
    | .model none => u.bases
    | .converter (.keyPresence wrapper tagEnum arms) =>
      wrapper :: tagEnum :: arms.map (·.variantType)
    | .converter (.contentTypeUid arms) => arms.map (·.2)
    | _ => []

def Sees (u v : GeneratedUnit) : Prop :=
  v.namespacePath <+: u.namespacePath ∨ v.namespaceName ∈ u.imports

structure Closed (units : List GeneratedUnit) : Prop where
  references : ∀ u ∈ units, ∀ name ∈ u.references, ∃ v ∈ units, v.name = name ∧ u.Sees v
  imports : ∀ u ∈ units, ∀ name ∈ u.imports, ∃ v ∈ units, v.namespaceName = name

end GeneratedUnit

theorem Resolver.reference_names {r : Resolver} {field : Field} {owner name : String}
    (member : name ∈ (r.reference field owner).type.names) :
    ∃ target uid d, field.reference = some target ∧ target.sole? = some uid ∧
      r.registry.lookup uid = some d ∧ name = definitionName d.title d.uid := by
  unfold reference at member
  cases declared : field.reference with
  | none => simp [declared, untyped, TypeRef.names] at member
  | some target =>
    cases sole : definite? field target with
    | none => simp [declared, sole, untyped, TypeRef.names] at member
    | some uid =>
      have single : target.sole? = some uid := by
        unfold definite? at sole
        split at sole
        · cases sole
        · exact sole
      cases found : r.registry.lookup uid with
      | none => simp [declared, sole, found, untyped, TypeRef.names] at member
      | some d =>
        exact ⟨target, uid, d, rfl, single, found,
          by simpa [declared, sole, found, typed, TypeRef.names] using member⟩

theorem Resolver.resolve_type_names (r : Resolver) (field : Field) (owner : String) :
    (r.resolve field owner).type.names = (r.element field owner).type.names := by
  unfold resolve
  dsimp only
  split <;> rfl

theorem Resolver.resolve_names {r : Resolver} {field : Field} {owner name : String}
    (member : name ∈ (r.resolve field owner).type.names) :
    (∃ role : NestedRole, field.kind = role.kind ∧
      name = nestedTypeName r.prefixes role owner field) ∨
    (∃ uid d, r.registry.lookup uid = some d ∧ name = definitionName d.title d.uid) := by
  have known (named : name ∈ (r.reference field owner).type.names) :
      ∃ uid d, r.registry.lookup uid = some d ∧ name = definitionName d.title d.uid := by
    obtain ⟨_, uid, d, _, _, found, same⟩ := reference_names named
    exact ⟨uid, d, found, same⟩
  rw [resolve_type_names] at member
  unfold Resolver.element at member
  cases kind : field.kind with
  | reference => exact .inr (known (by simpa [kind] using member))
  | globalField => exact .inr (known (by simpa [kind] using member))
  | blocks => exact .inl ⟨.blocks, rfl, by simpa [kind, typed, TypeRef.names] using member⟩
  | group => exact .inl ⟨.group, rfl, by simpa [kind, typed, TypeRef.names] using member⟩
  | json =>
    simp only [kind, typed] at member
    split at member <;> simp [TypeRef.names] at member
  | _ => simp [kind, typed, untyped, TypeRef.names] at member

namespace Emission

theorem mem_insertImport {name other : String} {names : List String} :
    name ∈ insertImport other names ↔ name = other ∨ name ∈ names := by
  induction names with
  | nil => simp [insertImport]
  | cons first rest ih =>
    unfold insertImport
    split
    · simp
    · split
      next same => simp [same]
      next => simp [ih, or_left_comm]

theorem mem_nestedNamespaces {c : Context} {scope : Scope} {owner name : String}
    {fields : List Field} : name ∈ nestedNamespaces c scope owner fields ↔
      ∃ role : NestedRole, (∃ field ∈ fields, field.kind = role.kind) ∧
        name = c.namespaceName (nestedScope scope owner role) := by
  have folded (names : List String) : name ∈ names.foldr insertImport [] ↔ name ∈ names := by
    induction names with
    | nil => simp
    | cons first rest ih => simp [mem_insertImport, ih]
  have holds (role : NestedRole) :
      hasFieldOf role fields = true ↔ ∃ field ∈ fields, field.kind = role.kind := by
    simp [hasFieldOf]
  have every (role : NestedRole) : role ∈ [NestedRole.blocks, .group] := by
    cases role <;> simp
  rw [nestedNamespaces, folded]
  simp only [List.mem_map, List.mem_filter, every, true_and, holds]
  constructor
  · rintro ⟨role, found, rfl⟩
    exact ⟨role, found, rfl⟩
  · rintro ⟨role, found, rfl⟩
    exact ⟨role, found, rfl⟩

variable {c : Context}

namespace Site

theorem Covered.block_done {s : Site} {l : Ledger} (covered : s.Covered c l) {field : Field}
    (declared : field ∈ s.declared) (kind : field.kind = .blocks) {u : GeneratedUnit}
    (member : u ∈ s.blockUnits c field) : l.isCompleted (unitKey field.uid .blockSet u) = true :=
  covered _ (blockSet_mem_plans declared kind member)

theorem Covered.nested_done {s : Site} {l : Ledger} (covered : s.Covered c l) {field : Field}
    (declared : field ∈ s.declared) {role : NestedRole} (kind : field.kind = role.kind) :
    ∃ key, l.isCompleted key = true ∧
      key.qualified = c.qualified (s.below role) (s.nestedName c role field) := by
  cases role with
  | blocks =>
    let wrapper : GeneratedUnit :=
      { name := s.nestedName c .blocks field
        namespacePath := c.namespacePath (s.below .blocks)
        directoryPath := s.below .blocks
        body := .wrapper
        members := [⟨blockTypeMember, blockTypeMember,
          .named (tagEnumName (s.nestedName c .blocks field)), .plain⟩] }
    have member : wrapper ∈ s.blockUnits c field :=
      List.mem_cons_of_mem _ List.mem_cons_self
    have placed : wrapper.namespacePath = c.namespacePath wrapper.directoryPath := rfl
    exact ⟨_, covered.block_done declared kind member, qualifiedName_eq c placed⟩
  | group =>
    have planned : (Outline.ofGroup c (s.below .group) s.name field).plan c ∈ s.plans c :=
      mem_plans.mpr (.inr ⟨field, declared, kind, rfl⟩)
    exact ⟨_, covered _ planned, rfl⟩

end Site

-- The types nested in the fields of a site are placed below the site itself or, for a variant
-- with the fields of a global field, below the definition of that field.
theorem home_grown (coherent : c.registry.Coherent) {p : Position} {s : Site}
    (site : At c c.registry.all p s) (grown : s.Grown c (finished c)) :
    s.fields = [] ∨ ∃ q t, At c c.registry.all q t ∧ t.Grown c (finished c) ∧
      t.directory = s.home ∧ t.name = s.owner ∧ t.declared = s.fields := by
  rcases site.content_cases with own | none | ⟨globalField, g, found, global⟩
  · exact .inr ⟨p, s, site, grown, (congrArg Content.home own).symm,
      (congrArg Content.owner own).symm, congrArg Content.declared own⟩
  · exact .inl (congrArg Content.fields none)
  · -- the definition of the global field is emitted on its own account
    obtain ⟨registered, _⟩ := (coherent.lookup_eq_some globalField g).mp found
    obtain ⟨k, here⟩ := List.mem_iff_getElem?.mp registered
    refine .inr ⟨_, _, .definition here, definition_grown coherent registered, ?_⟩
    rw [global]
    exact ⟨rfl, rfl, rfl⟩

section finished

variable (valid : c.options.Valid)

include valid

theorem exists_nested {p : Position} {s : Site} (site : At c c.registry.all p s)
    (covered : s.Covered c (finished c)) {field : Field}
    (declared : field ∈ s.declared) {role : NestedRole} (kind : field.kind = role.kind) :
    ∃ v ∈ (finished c).units.toList, v.name = s.nestedName c role field ∧
      v.namespacePath = c.namespacePath (s.below role) := by
  obtain ⟨key, done, named⟩ := covered.nested_done declared kind
  have plain := site.plain valid
  exact exists_named valid done named (plain.below role).1 (plain.nestedName valid role field)

theorem exists_definition {d : Definition} (registered : d ∈ c.registry.all) :
    ∃ v ∈ (finished c).units.toList, v.name = definitionName d.title d.uid ∧
      v.namespacePath = c.namespacePath c.rootScope := by
  have plain := Site.ofDefinition_plain valid d
  exact exists_named valid (definition_done registered) rfl plain.directory plain.name

theorem exists_resolved (coherent : c.registry.Coherent) {p : Position} {s : Site}
    (site : At c c.registry.all p s) (grown : s.Grown c (finished c)) {field : Field}
    (member : field ∈ s.fields) {name : String}
    (named : name ∈ (c.resolver.resolve field s.owner).type.names) :
    ∃ v ∈ (finished c).units.toList, v.name = name ∧
      (v.namespacePath = c.namespacePath c.rootScope ∨
        v.namespaceName ∈ nestedNamespaces c s.home s.owner s.fields) := by
  rcases Resolver.resolve_names named with ⟨role, kind, rfl⟩ | ⟨uid, d, found, rfl⟩
  · rcases home_grown coherent site grown with empty | ⟨q, t, home, below, placed, called, declares⟩
    · simp [empty] at member
    · -- the type is declared below another site, so its namespace has to be imported
      have declared : field ∈ t.declared := declares ▸ member
      obtain ⟨v, kept, called', spaced⟩ := exists_nested valid home below.covers declared kind
      refine ⟨v, kept, by rw [called', Site.nestedName, called]; rfl, .inr ?_⟩
      apply mem_nestedNamespaces.mpr
      refine ⟨role, ⟨field, member, kind⟩, ?_⟩
      rw [GeneratedUnit.namespaceName, spaced, Site.below, placed, called]
      rfl
  · obtain ⟨registered, _⟩ := (coherent.lookup_eq_some uid d).mp found
    obtain ⟨v, kept, called, spaced⟩ := exists_definition valid registered
    exact ⟨v, kept, called, .inl spaced⟩

theorem exists_namespace (coherent : c.registry.Coherent) {p : Position} {s : Site}
    (site : At c c.registry.all p s) (grown : s.Grown c (finished c)) {name : String}
    (used : name ∈ nestedNamespaces c s.home s.owner s.fields) :
    ∃ v ∈ (finished c).units.toList, v.namespaceName = name := by
  obtain ⟨role, ⟨field, member, kind⟩, rfl⟩ := mem_nestedNamespaces.mp used
  rcases home_grown coherent site grown with empty | ⟨q, t, home, below, placed, called, declares⟩
  · simp [empty] at member
  · have declared : field ∈ t.declared := declares ▸ member
    obtain ⟨v, kept, _, spaced⟩ := exists_nested valid home below.covers declared kind
    exact ⟨v, kept, by rw [GeneratedUnit.namespaceName, spaced, Site.below, placed, called]; rfl⟩

theorem exists_block {p : Position} {s : Site} (site : At c c.registry.all p s)
    (covered : s.Covered c (finished c)) {field : Field}
    (declared : field ∈ s.declared) (kind : field.kind = .blocks) {u : GeneratedUnit}
    (member : u ∈ s.blockUnits c field) :
    ∃ v ∈ (finished c).units.toList, v.name = u.name ∧ v.namespacePath = u.namespacePath := by
  have proper := (site.plain valid).blockUnits_proper valid member
  have done := covered.block_done declared kind member
  rw [proper.namespaced]
  exact exists_named valid done proper.qualifiedName proper.directory proper.name

theorem exists_variant {p : Position} {s : Site} (site : At c c.registry.all p s)
    (covered : s.Covered c (finished c)) {field : Field}
    (declared : field ∈ s.declared) (kind : field.kind = .blocks) {v : Definition}
    (planned : variantPlan c (s.below .blocks) (s.nestedName c .blocks field) v ∈
      variantsPlans c (s.blockField c field) [] (.reserving []) field.variants) :
    ∃ w ∈ (finished c).units.toList, w.name = s.variantName c field v ∧
      w.namespacePath = c.namespacePath (s.below .blocks) := by
  have plain := site.plain valid
  obtain ⟨o, nested, same, outlines⟩ := s.variant_outlines field v
  have member : Plan.model o nested ∈ s.plans c := by
    apply Site.mem_plans.mpr
    refine .inl ⟨field, declared, kind, List.mem_cons_of_mem _ (List.mem_append_left _ ?_)⟩
    exact same ▸ planned
  have named : (o.key c).qualified =
      c.qualified (s.below .blocks) (s.variantName c field v) := by
    rw [Outline.key_qualified, outlines.scope, outlines.name]
    rfl
  exact exists_named valid (covered _ member) named (plain.below .blocks).1
    (isIdentifier_variantTypeName (plain.nestedName valid .blocks field) v.title v.uid)

theorem exists_wrapper {p : Position} {s : Site} (site : At c c.registry.all p s)
    (around : Surrounded c c.registry.all p (finished c)) {name : String}
    (extended : s.wrapper = some name) :
    ∃ v ∈ (finished c).units.toList, v.name = name ∧
      v.namespacePath = c.namespacePath s.directory := by
  cases site with
  | definition => cases extended
  | nested owner nests =>
    cases nests with
    | group => cases extended
    | @variant i j field w declared kind =>
      cases extended
      have blocks : field.kind = NestedRole.blocks.kind := kind
      have covered := around _ _ _ rfl owner
      exact exists_nested valid owner covered (List.mem_of_getElem? declared) blocks

end finished

theorem Site.Outlines.mentions {s : Site} {o : Outline} {nested : List Plan}
    (outlines : s.Outlines c o nested) {name : String}
    (mentioned : name ∈ (o.unit c).references) :
    (∃ field ∈ s.fields, name ∈ (c.resolver.resolve field s.owner).type.names) ∨
      s.wrapper = some name := by
  rcases List.mem_append.mp mentioned with typed | base
  · obtain ⟨m, among, named⟩ := List.mem_flatMap.mp typed
    have pairs := List.mem_map_of_mem (f := fun m : Member => (m.wire, m.type)) among
    rw [outlines.models.members] at pairs
    obtain ⟨field, member, same⟩ := List.mem_map.mp pairs
    have types : (c.resolver.resolve field s.owner).type = m.type := (Prod.mk.inj same).2
    exact .inl ⟨field, member, types ▸ named⟩
  · cases typed : o.contentTypeUid with
    | some uid => simp [Outline.unit, typed] at base
    | none => exact .inr (outlines.wrapper typed name (by simpa [Outline.unit, typed] using base))

theorem Site.mentions_blockUnits {s : Site} {field : Field} {u : GeneratedUnit}
    (member : u ∈ s.blockUnits c field) {name : String} (mentioned : name ∈ u.references) :
    name = tagEnumName (s.nestedName c .blocks field) ∨ name = s.nestedName c .blocks field ∨
      ∃ tag ∈ (s.blockField c field).tags [] (.reserving []) field.variants,
        name = tag.variantType := by
  simp only [blockUnits, blockSet, List.mem_cons, List.not_mem_nil, or_false] at member
  rcases member with rfl | rfl | rfl
  · simp [GeneratedUnit.references] at mentioned
  · simp only [GeneratedUnit.references, List.flatMap_cons, List.flatMap_nil, TypeRef.names,
      List.append_nil, List.mem_singleton] at mentioned
    exact .inl mentioned
  · simp only [GeneratedUnit.references, List.flatMap_nil, List.nil_append, List.mem_cons,
      List.mem_map] at mentioned
    rcases mentioned with same | same | ⟨tag, among, same⟩
    · exact .inr (.inl same)
    · exact .inl same
    · exact .inr (.inr ⟨tag, among, same.symm⟩)

theorem mentions_supportUnits {registry : Registry} {path directory : List String}
    {u : GeneratedUnit} (member : u ∈ supportUnits registry path directory) {name : String}
    (mentioned : name ∈ u.references) :
    ∃ d ∈ registry.all, name = definitionName d.title d.uid := by
  simp only [supportUnits, List.mem_cons, List.not_mem_nil, or_false] at member
  rcases member with rfl | rfl | rfl | rfl | rfl
  · simp [GeneratedUnit.references, linkMembers, TypeRef.names] at mentioned
  · simp [GeneratedUnit.references] at mentioned
  · simp [GeneratedUnit.references] at mentioned
  · simp [GeneratedUnit.references] at mentioned
  · simp only [GeneratedUnit.references, List.flatMap_nil, List.nil_append, List.mem_map,
      contentTypeArms] at mentioned
    obtain ⟨arm, ⟨d, among, rfl⟩, rfl⟩ := mentioned
    exact ⟨d, List.mem_of_mem_filter among, rfl⟩

theorem tags_planned {b : BlockField} {variants : List Definition} {seen : List String}
    {names : MemberNames} {tag : VariantTag} (member : tag ∈ b.tags seen names variants) :
    ∃ v, tag.variantType = variantTypeName b.wrapper v.title v.uid ∧
      variantPlan c b.scope b.wrapper v ∈ variantsPlans c b seen names variants := by
  induction variants generalizing seen names with
  | nil => simp [BlockField.tags] at member
  | cons v rest ih =>
    by_cases known : seen.contains v.uid = true
    · rw [BlockField.tags, if_pos known] at member
      rw [variantsPlans, if_pos known]
      obtain ⟨w, typed, planned⟩ := ih member
      exact ⟨w, typed, List.mem_cons_of_mem _ planned⟩
    · rw [BlockField.tags, if_neg known] at member
      rw [variantsPlans, if_neg known]
      rcases List.mem_cons.mp member with rfl | member
      · exact ⟨v, rfl, List.mem_cons_self⟩
      · obtain ⟨w, typed, planned⟩ := ih member
        exact ⟨w, typed, List.mem_cons_of_mem _ (List.mem_cons_of_mem _ planned)⟩

section closed

variable (valid : c.options.Valid) (coherent : c.registry.Coherent)

include valid in
theorem block_closed {p : Position} {s : Site} (site : At c c.registry.all p s)
    (covered : s.Covered c (finished c)) {field : Field}
    (declared : field ∈ s.declared) (kind : field.kind = .blocks) {u : GeneratedUnit}
    (member : u ∈ s.blockUnits c field) {name : String} (mentioned : name ∈ u.references) :
    ∃ v ∈ (finished c).units.toList, v.name = name ∧ u.Sees v := by
  have spaced : u.namespacePath = c.namespacePath (s.below .blocks) := (mem_blockSet member).1
  have seen {v : GeneratedUnit} (beside : v.namespacePath = c.namespacePath (s.below .blocks)) :
      u.Sees v := .inl (by rw [beside, spaced])
  rcases Site.mentions_blockUnits member mentioned with rfl | rfl | ⟨tag, among, rfl⟩
  · obtain ⟨v, kept, called, beside⟩ :=
      exists_block valid site covered declared kind List.mem_cons_self
    exact ⟨v, kept, called, seen beside⟩
  · obtain ⟨v, kept, called, beside⟩ :=
      exists_nested valid site covered declared (show field.kind = NestedRole.blocks.kind from kind)
    exact ⟨v, kept, called, seen beside⟩
  · obtain ⟨w, typed, planned⟩ := tags_planned among
    obtain ⟨v, kept, called, beside⟩ := exists_variant valid site covered declared kind planned
    exact ⟨v, kept, called.trans typed.symm, seen beside⟩

include valid in
theorem support_closed {u : GeneratedUnit}
    (member : u ∈ supportUnits c.registry (c.namespacePath c.rootScope) c.rootScope)
    {name : String} (mentioned : name ∈ u.references) :
    ∃ v ∈ (finished c).units.toList, v.name = name ∧ u.Sees v := by
  have spaced : u.namespacePath = c.namespacePath c.rootScope := (mem_supportUnits member).1
  obtain ⟨d, registered, rfl⟩ := mentions_supportUnits member mentioned
  obtain ⟨v, kept, called, beside⟩ := exists_definition valid registered
  exact ⟨v, kept, called, .inl (by rw [beside, spaced])⟩

include valid coherent

theorem model_closed {p : Position} {s : Site} (site : At c c.registry.all p s) {o : Outline}
    {nested : List Plan} (outlines : s.Outlines c o nested)
    (inner : (finished c).CoversNested c (.model o nested))
    (around : Surrounded c c.registry.all p (finished c)) {name : String}
    (mentioned : name ∈ (o.unit c).references) :
    ∃ v ∈ (finished c).units.toList, v.name = name ∧ (o.unit c).Sees v := by
  have spaced : (o.unit c).namespacePath = c.namespacePath s.directory :=
    congrArg c.namespacePath outlines.scope
  have uses : (o.unit c).imports = nestedNamespaces c s.home s.owner s.fields := outlines.imports
  rcases outlines.mentions mentioned with ⟨field, member, named⟩ | extended
  · obtain ⟨v, kept, called, root | imported⟩ :=
      exists_resolved valid coherent site ⟨o, nested, outlines, inner⟩ member named
    · refine ⟨v, kept, called, .inl ?_⟩
      rw [root, spaced]
      exact List.cons_prefix_cons.mpr ⟨rfl, (site.plain valid).rooted⟩
    · exact ⟨v, kept, called, .inr (uses ▸ imported)⟩
  · obtain ⟨v, kept, called, beside⟩ := exists_wrapper valid site around extended
    refine ⟨v, kept, called, .inl ?_⟩
    rw [beside, spaced]

end closed

theorem finished_closed (valid : c.options.Valid) (coherent : c.registry.Coherent) :
    GeneratedUnit.Closed (finished c).units.toList := by
  constructor
  all_goals
    intro u member
    obtain ⟨target, emits, _, purpose⟩ := exists_purpose (generationPlans_rooted c) member
  · intro name mentioned
    cases purpose with
    | note => cases emits
    | support _ known =>
      cases emits
      exact support_closed valid known mentioned
    | blockSet site declared kind own covered =>
      cases emits
      exact block_closed valid site covered declared kind own mentioned
    | model site outlines inner around =>
      cases emits
      exact model_closed valid coherent site outlines inner around mentioned
  · intro name used
    cases purpose with
    | note => cases emits
    | support _ known =>
      cases emits
      simp [(mem_supportUnits known).2.2] at used
    | blockSet site declared kind own covered =>
      cases emits
      simp [(mem_blockSet own).2.2] at used
    | @model p s o nested site outlines inner =>
      cases emits
      have uses : (o.unit c).imports = nestedNamespaces c s.home s.owner s.fields :=
        outlines.imports
      exact exists_namespace valid coherent site ⟨o, nested, outlines, inner⟩ (uses ▸ used)

theorem generate_closed {registry : Registry} (built : registry.Built) {options : Options}
    (valid : options.Valid) :
    ∃ output, generate registry options = .ok output ∧ GeneratedUnit.Closed output.units :=
  ⟨_, generate_eq registry options, finished_closed valid built.coherent⟩

def magazine : Registry := .ofList
  [(Definition.new "seo" "SEO" [(Field.new "robots" .blocks).withBlocks
      [.new "index" "Index" [.new "follow" .boolean]]]).withOrigin .globalField,
    .new "article" "Article"
      [(Field.new "body" .blocks).withBlocks
        [(Definition.new "meta" "Meta" []).referencing "seo",
          .new "text" "Text" [(Field.new "rows" .group).withSchema [.new "cell" .text]]],
        (Field.new "related" .reference).withReference (.many ["article"])]]

theorem magazine_closed : magazine.Built ∧ Options.Valid {} ∧
    ∃ output, generate magazine {} = .ok output ∧ GeneratedUnit.Closed output.units ∧
      (output.units.find? (·.name = "MBArticleBodyMeta")).map (fun u =>
          (u.namespaceName, u.imports, u.bases, u.members.map (·.type))) =
        some ("ContentstackModels.Models.ArticleBlocks", ["ContentstackModels.Models.SEOBlocks"],
          ["MBArticleBody"], [.named "MBSEORobots"]) := by
  have built : magazine.Built := .extend .empty _
  obtain ⟨output, generated, closed⟩ := generate_closed built Options.default_valid
  have shown : (generate magazine {}).toOption.map (fun output =>
      (output.units.find? (·.name = "MBArticleBodyMeta")).map fun u =>
        (u.namespaceName, u.imports, u.bases, u.members.map (·.type))) =
      some (some ("ContentstackModels.Models.ArticleBlocks",
        ["ContentstackModels.Models.SEOBlocks"], ["MBArticleBody"], [.named "MBSEORobots"])) := by
    decide +kernel
  rw [generated] at shown
  exact ⟨built, Options.default_valid, output, generated, closed, Option.some.inj shown⟩

end Emission

end ContentModels
