import ContentModels.Proofs.Config
import ContentModels.Proofs.Emission.Closure
import ContentModels.Proofs.Emission.Tags
import ContentModels.Proofs.Emission.Uniqueness
import ContentModels.Proofs.FileTree
import ContentModels.Proofs.Naming.Candidate
import ContentModels.Proofs.Spelling.Declarations
import ContentModels.Rendering

set_option autoImplicit false

namespace ContentModels

open Naming Config

namespace Emission

theorem companions_allNameChars (a : Accessor) : ∀ suffix ∈ a.companions, AllNameChars suffix := by
  cases a with
  | plain => simp [Accessor.companions]
  | markdown =>
    intro suffix member
    rw [List.mem_singleton.mp member]
    exact allNameChars_of_isIdentifier (by decide)

theorem At.home_plain {c : Context} {roots : List Definition} (valid : c.options.Valid)
    {p : Position} {s : Site} (site : At c roots p s) :
    isIdentifier s.owner = true ∧ ∀ segment ∈ s.home, isIdentifier segment = true := by
  have plain := site.plain valid
  rcases site.content_cases with own | none | ⟨_, g, _, global⟩
  · rw [own]
    exact ⟨plain.name, plain.directory⟩
  · rw [none]
    exact ⟨plain.name, plain.directory⟩
  · rw [global]
    have home := Site.ofDefinition_plain valid g
    exact ⟨home.name, home.directory⟩

theorem isDottedIdentifier_namespaceName {c : Context}
    (root : isDottedIdentifier c.options.namespaceName = true) {scope : Scope}
    (plain : ∀ segment ∈ scope, isIdentifier segment = true) :
    isDottedIdentifier (c.namespaceName scope) = true := by
  apply isDottedIdentifier_intercalate (by simp [Context.namespacePath])
  intro part member
  rcases List.mem_cons.mp member with rfl | member
  · exact root
  · exact isDottedIdentifier_of_isIdentifier (plain part member)

structure WellNamed (u : GeneratedUnit) : Prop where
  name : isIdentifier u.name = true
  directory : ∀ segment ∈ u.directoryPath, isIdentifier segment = true
  placed : isDottedIdentifier u.namespaceName = true
  imports : ∀ name ∈ u.imports, isDottedIdentifier name = true
  members : ∀ name ∈ u.members.flatMap Member.names, isIdentifier name = true
  references : ∀ name ∈ u.references, isIdentifier name = true
  tags : ∀ tags, u.body.tags? = some tags →
    ∀ t ∈ tags, isIdentifier t.member = true ∧ isIdentifier t.variantType = true

section named

variable {c : Context} (valid : c.options.Valid)

theorem Outline.declared_identifiers (o : Outline) :
    ∀ name ∈ (o.unit c).members.flatMap Member.names, isIdentifier name = true := by
  intro name member
  obtain ⟨m, declared, named⟩ := List.mem_flatMap.mp member
  obtain ⟨field, _, n, rfl⟩ := exists_declared declared
  exact MemberNames.isIdentifier_of_mem_family (isIdentifier_firstName _ _)
    (companions_allNameChars (accessor field)) n name named

include valid

theorem resolve_identifiers {field : Field} {owner name : String}
    (owned : isIdentifier owner = true)
    (named : name ∈ (c.resolver.resolve field owner).type.names) : isIdentifier name = true := by
  rcases Resolver.resolve_names named with ⟨role, _, rfl⟩ | ⟨uid, d, _, rfl⟩
  · exact isIdentifier_nestedTypeName valid.prefixes role owned field
  · exact isIdentifier_definitionName d.title d.uid

theorem Site.tags_identifiers {s : Site} (plain : s.Plain c) {field : Field} {t : VariantTag}
    (member : t ∈ s.tags c field) :
    isIdentifier t.member = true ∧ isIdentifier t.variantType = true := by
  obtain ⟨v, _, n, rfl⟩ := BlockField.exists_tag member
  exact ⟨MemberNames.isIdentifier_candidate (isIdentifier_firstName _ _) n,
    isIdentifier_variantTypeName (plain.nestedName valid .blocks field) v.title v.uid⟩

theorem At.wrapper_identifier {roots : List Definition} {p : Position} {s : Site}
    (site : At c roots p s) {wrapper : String} (extended : s.wrapper = some wrapper) :
    isIdentifier wrapper = true := by
  cases site with
  | definition => cases extended
  | nested owner nests =>
    cases nests with
    | group => cases extended
    | variant =>
      cases extended
      exact (owner.plain valid).nestedName valid .blocks _

variable (root : isDottedIdentifier c.options.namespaceName = true)

include root

omit valid in
theorem Proper.placed {u : GeneratedUnit} (proper : Proper c u) :
    isDottedIdentifier u.namespaceName = true := by
  rw [GeneratedUnit.namespaceName, proper.namespaced]
  exact isDottedIdentifier_namespaceName root proper.directory

theorem supportUnits_wellNamed {u : GeneratedUnit}
    (known : u ∈ supportUnits c.registry (c.namespacePath c.rootScope) c.rootScope) :
    WellNamed u := by
  have proper := supportUnits_proper valid known
  have imports : u.imports = [] := (mem_supportUnits known).2.2
  have tags : u.body.tags? = none := supportUnits_tags? known
  have links : ∀ name ∈ linkMembers.flatMap Member.names, isIdentifier name = true := by decide
  refine ⟨proper.name, proper.directory, proper.placed root, by simp [imports], ?_, ?_,
    by simp [tags]⟩
  · intro name member
    simp only [supportUnits, List.mem_cons, List.not_mem_nil, or_false] at known
    rcases known with rfl | rfl | rfl | rfl | rfl
    · exact links name member
    all_goals simp at member
  · intro name mentioned
    obtain ⟨d, _, rfl⟩ := mentions_supportUnits known mentioned
    exact isIdentifier_definitionName d.title d.uid

theorem Site.blockUnits_wellNamed {p : Position} {s : Site} (site : At c c.registry.all p s)
    {field : Field} {u : GeneratedUnit} (own : u ∈ s.blockUnits c field) : WellNamed u := by
  have plain := site.plain valid
  have proper := plain.blockUnits_proper valid own
  have wrapper := plain.nestedName valid .blocks field
  have imports : u.imports = [] := (mem_blockSet own).2.2
  have block : isIdentifier blockTypeMember = true := by decide
  refine ⟨proper.name, proper.directory, proper.placed root, by simp [imports], ?_, ?_, ?_⟩
  · intro name member
    simp only [blockUnits, blockSet, List.mem_cons, List.not_mem_nil, or_false] at own
    rcases own with rfl | rfl | rfl
    · simp at member
    · have only : name = blockTypeMember := by
        simpa [Member.names, Accessor.companions] using member
      exact only ▸ block
    · simp at member
  · intro name mentioned
    rcases mentions_blockUnits own mentioned with rfl | rfl | ⟨t, member, rfl⟩
    · exact isIdentifier_tagEnumName wrapper
    · exact wrapper
    · exact (Site.tags_identifiers valid plain member).2
  · intro tags holds t member
    obtain rfl := blockSet_tags? own holds
    exact Site.tags_identifiers valid plain member

theorem Site.Outlines.wellNamed {p : Position} {s : Site} (site : At c c.registry.all p s)
    {o : Outline} {nested : List Plan} (outlines : s.Outlines c o nested) :
    WellNamed (o.unit c) := by
  have proper := (site.plain valid).model_proper outlines
  obtain ⟨owner, home⟩ := site.home_plain valid
  refine ⟨proper.name, proper.directory, proper.placed root, ?_, o.declared_identifiers, ?_, nofun⟩
  · intro name used
    have imports : (o.unit c).imports = nestedNamespaces c s.home s.owner s.fields :=
      outlines.imports
    obtain ⟨role, _, rfl⟩ := mem_nestedNamespaces.mp (imports ▸ used)
    apply isDottedIdentifier_namespaceName root
    intro segment member
    rcases List.mem_append.mp member with member | member
    · exact home segment member
    · exact List.mem_singleton.mp member ▸ isIdentifier_nestedDirectory owner role
  · intro name mentioned
    rcases outlines.mentions mentioned with ⟨field, _, named⟩ | extended
    · exact resolve_identifiers valid owner named
    · exact site.wrapper_identifier valid extended

theorem Made.wellNamed {u : GeneratedUnit} (made : Made c u) : WellNamed u := by
  cases made with
  | support known => exact supportUnits_wellNamed valid root known
  | blockSet site _ _ own => exact Site.blockUnits_wellNamed valid root site own
  | model site outlines => exact outlines.wellNamed valid root site

end named

-- Whether a file is placed in a directory, or in directories below it that are named by
-- identifiers.
structure Contained (directory : String) (file : RenderedUnit) (inner : List String) : Prop where
  name : isIdentifier file.name = true
  directories : ∀ segment ∈ directory :: inner, isIdentifier segment = true
  path : file.path = "/".intercalate (directory :: (inner ++ [file.name ++ ".cs"]))
  segments : Path.segments file.path = directory :: (inner ++ [file.name ++ ".cs"])
  relative : Path.isAbsolute file.path = false
  joined : ∀ root, Path.join root file.path =
    Path.join root directory ++ "/" ++ "/".intercalate (inner ++ [file.name ++ ".cs"])
  located : ∀ (t : FileTree) (root : String) (location : Location),
    t.locate (Path.join root file.path) = some location →
      ∃ base, t.locate (Path.join root directory) = some base ∧
        location = base ++ (inner ++ [file.name ++ ".cs"])

theorem descends_of_isIdentifier {s : String} (valid : isIdentifier s = true) {rest : String}
    (plain : '/' ∉ rest.toList) :
    s ++ rest ≠ "" ∧ s ++ rest ≠ "." ∧ s ++ rest ≠ ".." ∧ '/' ∉ (s ++ rest).toList := by
  have noSlash := notMem_of_isIdentifier valid (c := '/') (by decide)
  obtain ⟨c, tail, written, letter, _⟩ := (isIdentifier_iff s).mp valid
  have first (other : String) (same : s ++ rest = other) : other.toList.head? = some c := by
    simp [← same, written]
  refine ⟨fun same => ?_, fun same => ?_, fun same => ?_, by simp [noSlash, plain]⟩
  · cases first _ same
  all_goals
    cases first _ same
    exact absurd letter (by decide)

theorem Proper.relativePath_eq {c : Context} {u : GeneratedUnit} (proper : Proper c u) :
    u.relativePath "cs" = "/".intercalate (u.directoryPath ++ [u.name ++ ".cs"]) := by
  rw [proper.path_eq, Proper.stem, String.intercalate_append_of_ne_nil proper.nested (by simp),
    String.intercalate_append_of_ne_nil proper.nested (by simp)]
  simp [String.append_assoc]

theorem Proper.descending {c : Context} {u : GeneratedUnit} (proper : Proper c u) :
    Path.Descending (u.directoryPath ++ [u.name ++ ".cs"]) := by
  intro segment member
  rcases List.mem_append.mp member with member | member
  · have bare : '/' ∉ "".toList := List.not_mem_nil
    simpa using descends_of_isIdentifier (proper.directory segment member) bare
  · exact List.mem_singleton.mp member ▸ descends_of_isIdentifier proper.name (by decide)

theorem Proper.contained {c : Context} {u : GeneratedUnit} (proper : Proper c u) (nullable : Bool) :
    ∃ inner, u.directoryPath = c.options.directory :: inner ∧
      Contained c.options.directory ((Renderer.csharp nullable).render u) inner := by
  obtain ⟨inner, placed⟩ := proper.rooted
  have path := proper.relativePath_eq
  have down := proper.descending
  rw [← placed] at path down
  have some : inner ++ [u.name ++ ".cs"] ≠ [] := by simp
  refine ⟨inner, placed.symm, proper.name, ?_, path, ?_, ?_, ?_, ?_⟩
  · exact fun segment member => proper.directory segment (placed ▸ member)
  · exact (congrArg Path.segments path).trans (down.segments_intercalate (by simp))
  · exact (congrArg Path.isAbsolute path).trans (down.isAbsolute_intercalate some)
  · exact fun root => (congrArg (Path.join root) path).trans (down.join_intercalate some root)
  · intro t root location leads
    exact FileTree.locate_join down some (path ▸ leads)

structure Presentable (directory : String) (units : List GeneratedUnit) : Prop where
  named : ∀ u ∈ units, WellNamed u
  contained : ∀ nullable, ∀ u ∈ units, ∃ inner, u.directoryPath = directory :: inner ∧
    Contained directory ((Renderer.csharp nullable).render u) inner

theorem generate_presentable {config : Config} (accepted : config.validate = .ok ())
    (registry : Registry) (policy : ReferencePolicy) :
    ∃ output, generate registry (config.emissionOptions policy) = .ok output ∧
      Presentable config.output.directory output.units := by
  have valid := emissionOptions_valid accepted policy
  have root := (config.validate_eq_ok_iff.mp accepted).1
  refine ⟨_, generate_eq registry (config.emissionOptions policy), ?_, ?_⟩
  · exact fun u member => (finished_made member).wellNamed valid root
  · exact fun nullable u member => (finished_proper valid member).contained nullable

-- No text of this registry has a letter that a name could be made of, apart from one.
def oddities : Registry := .ofList
  [.new "" "" [.new "" .text, (Field.new "../.." .group).withSchema [.new "λ" .number]],
    (Definition.new "/" "日本" [(Field.new "." .blocks).withBlocks
      [.new "é" "" [.new "42" .date], .new "\x00" "a/b" []]]).withOrigin .globalField]

theorem oddities_presentable : validate {} = .ok () ∧
    ∃ output, generate oddities (emissionOptions {} .alwaysList) = .ok output ∧
      Presentable ({} : Config).output.directory output.units ∧
      (output.units.find? (·.members.any (·.wire = "../.."))).map (fun u =>
          (u.relativePath "cs", u.members.map (·.name), u.imports)) =
        some ("Models/Type811c9dc5.cs", ["Type811c9dc52", "Typeff09c962"],
          ["ContentstackModels.Models.Type811c9dc5Group"]) := by
  obtain ⟨output, generated, presentable⟩ :=
    generate_presentable default_validate oddities .alwaysList
  have shown : (generate oddities (emissionOptions {} .alwaysList)).toOption.map (fun output =>
      (output.units.find? (·.members.any (·.wire = "../.."))).map fun u =>
        (u.relativePath "cs", u.members.map (·.name), u.imports)) =
      some (some ("Models/Type811c9dc5.cs", ["Type811c9dc52", "Typeff09c962"],
        ["ContentstackModels.Models.Type811c9dc5Group"])) := by
    decide +kernel
  rw [generated] at shown
  exact ⟨default_validate, output, generated, presentable, Option.some.inj shown⟩

end Emission

end ContentModels
