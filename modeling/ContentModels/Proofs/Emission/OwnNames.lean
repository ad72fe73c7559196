import ContentModels.Proofs.Emission.Members
import ContentModels.Proofs.Emission.Visibility
import ContentModels.Proofs.Spelling.Types

set_option autoImplicit false

namespace ContentModels

open Naming

namespace Spelling

open Code (block)

def classDeclarations (nullable : Bool) (u : GeneratedUnit) : List Declaration :=
  match u.body with
  | .model contentTypeUid => declarations nullable u contentTypeUid
  | .wrapper => u.members.map fun m => .property none (typeName m.type) m.name
  | _ => []

def IsClass (nullable : Bool) (u : GeneratedUnit) (declared : List Declaration) : Prop :=
  ∃ before, code nullable u = before ++ [block ("namespace " ++ u.namespaceName)
    [block (classHeader u.name u.bases) (declared.flatMap Declaration.code)]]

theorem isClass (nullable : Bool) {u : GeneratedUnit} (kind : u.kind = .model ∨ u.kind = .wrapper) :
    IsClass nullable u (classDeclarations nullable u) := by
  cases body : u.body with
  | model contentTypeUid =>
    refine ⟨usings (modelUsings ++ u.imports) ++ [Code.blank], ?_⟩
    simp only [code, classDeclarations, body]
    rw [declarations_code]
    simp [file]
  | wrapper =>
    have rows : (u.members.map fun m => Declaration.property none (typeName m.type) m.name).flatMap
        Declaration.code = u.members.map fun m => property (typeName m.type) m.name := by
      rw [List.flatMap_map, List.map_eq_flatMap]
      rfl
    refine ⟨[], ?_⟩
    simp only [code, classDeclarations, body, wrapper, rows, List.nil_append]
  | tagEnum | converter | link | helper => simp [GeneratedUnit.kind, body, UnitBody.kind] at kind

end Spelling

def GeneratedUnit.DeclaresItself (u : GeneratedUnit) : Prop :=
  ∃ nullable, ∃ d ∈ Spelling.classDeclarations nullable u, d.name = u.name

theorem GeneratedUnit.declaresItself_model {u : GeneratedUnit} {contentTypeUid : Option String}
    (body : u.body = .model contentTypeUid) :
    u.DeclaresItself ↔ u.name ∈ u.declaredNames contentTypeUid := by
  have names (nullable : Bool) : (∃ d ∈ Spelling.classDeclarations nullable u, d.name = u.name) ↔
      u.name ∈ u.declaredNames contentTypeUid := by
    rw [← Spelling.declarations_names nullable, List.mem_map, Spelling.classDeclarations, body]
  simp [DeclaresItself, names]

theorem GeneratedUnit.declaresItself_wrapper {u : GeneratedUnit} (body : u.body = .wrapper) :
    u.DeclaresItself ↔ u.name ∈ u.members.map (·.name) := by
  simp [DeclaresItself, Spelling.classDeclarations, body, Spelling.Declaration.name]

theorem GeneratedUnit.not_declaresItself {u : GeneratedUnit} (model : u.kind ≠ .model)
    (wrapper : u.kind ≠ .wrapper) : ¬ u.DeclaresItself := by
  rintro ⟨nullable, d, member, _⟩
  cases body : u.body <;> simp_all [Spelling.classDeclarations, kind, UnitBody.kind]

theorem intercalate_eq_plain {xs ys : List String} (someX : xs ≠ []) (someY : ys ≠ [])
    (plain : ∀ y ∈ ys, '.' ∉ y.toList) (same : ".".intercalate xs = ".".intercalate ys) :
    xs = ys ∨ xs.length < ys.length := by
  have single : ".".toList = ['.'] := rfl
  by_cases plainX : ∀ x ∈ xs, '.' ∉ x.toList
  case pos => exact .inl (intercalate_injective single someX someY plainX plain same)
  case neg =>
    have pieces : xs.flatMap (·.splitOn ".") = ys := by
      rw [← Text.splitOn_intercalate single someX, same,
        Text.splitOn_intercalate_plain single someY plain]
    have some (x : String) : 1 ≤ (x.splitOn ".").length := by
      rw [Text.splitOn_eq single, List.length_map]
      exact List.length_pos_iff.mpr (List.splitOn_ne_nil _ _)
    have least (zs : List String) : zs.length ≤ (zs.flatMap (·.splitOn ".")).length := by
      induction zs with
      | nil => exact Nat.le_refl 0
      | cons z rest ih =>
        rw [List.flatMap_cons, List.length_append, List.length_cons]
        have := some z
        omega
    push Not at plainX
    obtain ⟨x, member, dot⟩ := plainX
    have two : 2 ≤ (x.splitOn ".").length := by
      obtain ⟨front, back, letters⟩ := List.append_of_mem dot
      have cut : x = String.ofList front ++ "." ++ String.ofList back := by
        rw [← String.toList_inj, letters]
        simp
      rw [cut, Text.splitOn_append single, List.length_append]
      exact Nat.add_le_add (some _) (some _)
    obtain ⟨before, after, rfl⟩ := List.append_of_mem member
    refine .inr ?_
    have first := least before
    have last := least after
    rw [← pieces, List.flatMap_append, List.flatMap_cons]
    simp only [List.length_append, List.length_cons]
    omega

namespace Naming

theorem capitals_nestedTypeName (prefixes : Prefixes) (role : NestedRole) (owner : String)
    (field : Field) : owner.toList.countP Char.isUpper <
      (nestedTypeName prefixes role owner field).toList.countP Char.isUpper := by
  have label := (capitalized_typeName_of_capitalized
    (capitalized_firstName field.uid [field.label, field.uid])).countP_pos
  have kept (letters : List Char) :
      (letters.filter (· ≠ ' ')).countP Char.isUpper = letters.countP Char.isUpper := by
    rw [List.countP_filter]
    refine List.countP_congr fun c _ => ?_
    by_cases space : c = ' ' <;> simp [space]
  rw [nestedTypeName, blockGroupTypeName, String.toList_ofList, kept, String.toList_append,
    String.toList_append, List.countP_append, List.countP_append]
  have same : typeNameOr field.label field.uid = firstName field.uid [field.label, field.uid] := rfl
  rw [same]
  omega

end Naming

namespace Emission

variable {c : Context} {roots : List Definition} {p : Position} {s : Site}

theorem At.capitals (site : At c roots p s) :
    0 < s.name.toList.countP Char.isUpper ∧
      ((∃ d ∈ roots, s = .ofDefinition c d) ∨ 1 < s.name.toList.countP Char.isUpper) := by
  induction site with
  | @definition i d root =>
    exact ⟨(capitalized_firstName d.uid [d.title, d.uid]).countP_pos,
      .inl ⟨_, List.mem_of_getElem? root, rfl⟩⟩
  | @nested p s t branch _ nests ih =>
    suffices 1 < t.name.toList.countP Char.isUpper from ⟨by omega, .inr this⟩
    have wrapper (role : NestedRole) (field : Field) :=
      capitals_nestedTypeName c.options.prefixes role s.name field
    cases nests with
    | @group _ field => exact Nat.lt_of_le_of_lt ih.1 (wrapper .group field)
    | @variant _ _ field v =>
      have longer := Nat.lt_of_le_of_lt ih.1 (wrapper .blocks field)
      rw [Site.variant, Site.variantName, variantTypeName, String.toList_append, List.countP_append]
      exact Nat.lt_add_right _ longer

theorem At.rooted (site : At c roots p s) : c.rootScope <+: s.directory := by
  induction site with
  | definition => exact List.prefix_rfl
  | nested _ nests ih =>
    obtain ⟨role, placed, _⟩ := nests.below
    rw [placed]
    exact ih.trans (List.prefix_append _ _)

theorem not_declaresItself_support {u : GeneratedUnit} {registry : Registry}
    {path directory : List String} (known : u ∈ supportUnits registry path directory) :
    ¬ u.DeclaresItself := by
  simp only [supportUnits, List.mem_cons, List.not_mem_nil, or_false] at known
  have kind : u.kind ≠ .model ∧ u.kind ≠ .wrapper := by
    rcases known with rfl | rfl | rfl | rfl | rfl <;> simp [GeneratedUnit.kind, UnitBody.kind]
  exact GeneratedUnit.not_declaresItself kind.1 kind.2

theorem Site.Outlines.not_embeddedItems (site : At c roots p s) {o : Outline} {nested : List Plan}
    (outlines : s.Outlines c o nested) (named : s.name = "embeddedItems") :
    entryEmbeddable ∉ o.bases := by
  intro based
  cases site with
  | definition => exact not_capitalized_embeddedItems (named ▸ capitalized_firstName _ _)
  | nested _ nests =>
    cases nests with
    | group =>
      have extended := outlines.wrapper (outlines.contentTypeUid.trans (if_neg nofun)) _ based
      cases extended
    | @variant _ _ field v =>
      have extended := outlines.wrapper (outlines.contentTypeUid.trans (if_neg nofun)) _ based
      have wrapper := Option.some.inj extended
      rw [Site.variant, Site.variantName, variantTypeName, wrapper, ← String.toList_inj] at named
      exact absurd (congrArg List.head? named) (by simp [entryEmbeddable])

theorem Site.Outlines.declaresItself_iff (site : At c roots p s) {o : Outline} {nested : List Plan}
    (outlines : s.Outlines c o nested) :
    (o.unit c).DeclaresItself ↔ s.role = .entry ∧ s.name ∈ entryMembers := by
  have named : (o.unit c).name = s.name := outlines.name
  have own := (outlines.declaresOnce site).own
  have embedded : (o.unit c).bases = o.bases := rfl
  have top : o.contentTypeUid.isSome = true ↔ s.role = .entry := by
    rw [outlines.contentTypeUid]
    split <;> simp_all
  rw [GeneratedUnit.declaresItself_model rfl, GeneratedUnit.declaredNames, List.mem_append,
    List.mem_append, or_iff_left own, named, embedded]
  constructor
  · rintro (fixed | trailing)
    · split at fixed
      next entry => exact ⟨top.mp entry, fixed⟩
      next => cases fixed
    · split at trailing
      next based =>
        exact absurd (by simpa using based)
          (outlines.not_embeddedItems site (List.mem_singleton.mp trailing))
      next => cases trailing
  · rintro ⟨entry, fixed⟩
    exact .inl (by rwa [if_pos (top.mpr entry)])

theorem declaresItself_block_iff {field : Field} {u : GeneratedUnit}
    (own : u ∈ s.blockUnits c field) :
    u.DeclaresItself ↔ u.kind = .wrapper ∧ u.name = blockTypeMember := by
  rcases blockSet_members own with ⟨kind, _, members⟩ | ⟨kind, _⟩
  · have body : u.body = .wrapper := by
      cases body : u.body <;> simp_all [GeneratedUnit.kind, UnitBody.kind]
    rw [GeneratedUnit.declaresItself_wrapper body, members]
    simp [kind]
  · have other := blockSet_kind own
    simp [kind, GeneratedUnit.not_declaresItself other kind]

theorem Made.rooted {u : GeneratedUnit} (made : Made c u) : c.rootScope <+: u.directoryPath := by
  cases made with
  | support known => rw [(mem_supportUnits known).2.1]
  | blockSet site _ _ own =>
    rw [(mem_blockSet own).2.1]
    exact site.rooted.trans (List.prefix_append _ _)
  | @model p s o _ site outlines =>
    have placed : (o.unit c).directoryPath = s.directory := outlines.scope
    exact placed ▸ site.rooted

theorem At.below_ne_rootScope (site : At c roots p s) (role : NestedRole) :
    s.below role ≠ c.rootScope := by
  intro same
  have lengths := congrArg List.length same
  have above := site.rooted.length_le
  simp only [Site.below, nestedScope, List.length_append, List.length_singleton] at lengths
  omega

theorem Made.of_root {u : GeneratedUnit} (made : Made c u) (root : u.directoryPath = c.rootScope) :
    u ∈ supportUnits c.registry (c.namespacePath c.rootScope) c.rootScope ∨
      ∃ d ∈ c.registry.all, ∃ o nested, (Site.ofDefinition c d).Outlines c o nested ∧
        u = o.unit c := by
  cases made with
  | support known => exact .inl known
  | blockSet site _ _ own =>
    exact absurd ((mem_blockSet own).2.1.symm.trans root) (site.below_ne_rootScope _)
  | @model p s o nested site outlines =>
    have placed : s.directory = c.rootScope := outlines.scope.symm.trans root
    cases site with
    | definition registered =>
      exact .inr ⟨_, List.mem_of_getElem? registered, o, nested, outlines, rfl⟩
    | nested owner nests =>
      obtain ⟨role, below, _⟩ := nests.below
      exact absurd (below.symm.trans placed) (owner.below_ne_rootScope role)

theorem Made.isIdentifier_of_root {u : GeneratedUnit} (made : Made c u)
    (root : u.directoryPath = c.rootScope) : Config.isIdentifier u.name = true := by
  rcases made.of_root root with known | ⟨d, _, o, _, outlines, rfl⟩
  · simp only [supportUnits, List.mem_cons, List.not_mem_nil, or_false] at known
    rcases known with rfl | rfl | rfl | rfl | rfl <;> dsimp only <;> decide
  · have named : (o.unit c).name = definitionName d.title d.uid := outlines.name
    exact named ▸ isIdentifier_definitionName d.title d.uid

-- A directory that is no identifier may make a qualified name readable in two ways, but not one
-- that ends at most one level below the root scope.
theorem finished_found {u : GeneratedUnit} (member : u ∈ (finished c).units.toList) (rest : Scope)
    (name : String) (short : rest.length ≤ 1)
    (plain : ∀ segment ∈ rest ++ [name], '.' ∉ segment.toList)
    (same : u.qualifiedName = c.qualified (c.rootScope ++ rest) name) :
    u.directoryPath = c.rootScope ++ rest ∧ u.name = name := by
  have made := finished_made member
  obtain ⟨below, placed⟩ := made.rooted
  rw [qualifiedName_eq c (finished_namespaced member), ← placed] at same
  have tails : ".".intercalate (below ++ [u.name]) = ".".intercalate (rest ++ [name]) := by
    simp only [Context.qualified, Context.namespacePath, Context.rootScope, List.cons_append,
      List.nil_append] at same
    rw [String.intercalate_cons_of_ne_nil (by simp), String.intercalate_cons_of_ne_nil (by simp),
      String.intercalate_cons_of_ne_nil (by simp), String.intercalate_cons_of_ne_nil (by simp)]
      at same
    exact String.append_right_inj _ |>.mp (String.append_right_inj _ |>.mp same)
  have paths : below ++ [u.name] = rest ++ [name] := by
    by_cases top : below = []
    · subst top
      have identifier := made.isIdentifier_of_root (placed.symm.trans (List.append_nil _))
      refine intercalate_injective rfl (by simp) (by simp) ?_ plain tails
      intro segment single
      rw [List.mem_singleton.mp single]
      exact notMem_of_isIdentifier identifier (by decide)
    · rcases intercalate_eq_plain (by simp) (by simp) plain tails with equal | shorter
      · exact equal
      · have nonempty := List.length_pos_iff.mpr top
        simp only [List.length_append, List.length_singleton] at shorter
        omega
  obtain ⟨scopes, names⟩ := List.append_inj' paths rfl
  exact ⟨by rw [← placed, scopes], List.singleton_inj.mp names⟩

inductive Echoes (options : Options) (d : Definition) : Prop
  | entry (fixed : definitionName d.title d.uid ∈ entryMembers)
  | wrapper {field : Field} (member : field ∈ d.fields) (kind : field.kind = .blocks)
      (named : nestedTypeName options.prefixes .blocks (definitionName d.title d.uid) field =
        blockTypeMember)

theorem Made.echoes {u : GeneratedUnit} (made : Made c u) (itself : u.DeclaresItself) :
    ∃ d ∈ c.registry.all, Echoes c.options d := by
  cases made with
  | support known => exact absurd itself (not_declaresItself_support known)
  | @blockSet p s field _ site declared kind own =>
    obtain ⟨wraps, named⟩ := (declaresItself_block_iff own).mp itself
    have called : s.nestedName c .blocks field = blockTypeMember := by
      rcases blockSet_members own with ⟨_, wrapper, _⟩ | ⟨other, _⟩
      · exact wrapper.symm.trans named
      · exact absurd wraps other
    -- the two capitals of the name leave one for the owner
    have fewer := capitals_nestedTypeName c.options.prefixes .blocks s.name field
    have total : (s.nestedName c .blocks field).toList.countP Char.isUpper = 2 := by
      rw [called]
      decide
    obtain ⟨_, ⟨d, registered, rfl⟩ | nested⟩ := site.capitals
    · exact ⟨d, registered, .wrapper declared kind called⟩
    · rw [Site.nestedName] at total
      omega
  | @model p s o _ site outlines =>
    obtain ⟨entry, fixed⟩ := (outlines.declaresItself_iff site).mp itself
    cases site with
    | definition root => exact ⟨_, List.mem_of_getElem? root, .entry fixed⟩
    | nested _ nests =>
      cases nests with
      | group => cases entry
      | variant => cases entry

theorem exists_declaresItself_entry {d : Definition} (registered : d ∈ c.registry.all)
    (fixed : definitionName d.title d.uid ∈ entryMembers) :
    ∃ u ∈ (finished c).units.toList, u.DeclaresItself := by
  have identifier := isIdentifier_definitionName d.title d.uid
  obtain ⟨u, member, same⟩ := (finished_consistent c).exists_unit (definition_done registered)
  have plain : ∀ segment ∈ [definitionName d.title d.uid], '.' ∉ segment.toList := by
    simpa using notMem_of_isIdentifier identifier (by decide)
  obtain ⟨placed, named⟩ :=
    finished_found member [] (definitionName d.title d.uid) (Nat.zero_le 1) plain same
  refine ⟨u, member, ?_⟩
  rcases (finished_made member).of_root placed with known | ⟨e, other, o, _, outlines, rfl⟩
  · have among : u.name ∈ supportNames := by
      rw [← supportUnits_map_name c.registry (c.namespacePath c.rootScope) c.rootScope]
      exact List.mem_map_of_mem known
    have apart : ∀ name ∈ supportNames, name ∉ entryMembers := by decide
    rw [named] at among
    exact absurd fixed (apart _ among)
  · obtain ⟨i, root⟩ := List.mem_iff_getElem?.mp other
    have called : (o.unit c).name = definitionName e.title e.uid := outlines.name
    refine (outlines.declaresItself_iff (.definition root)).mpr ⟨rfl, ?_⟩
    change definitionName e.title e.uid ∈ entryMembers
    rwa [← called, named]

theorem exists_declaresItself_wrapper (coherent : c.registry.Coherent) {d : Definition}
    (registered : d ∈ c.registry.all) {field : Field} (declared : field ∈ d.fields)
    (kind : field.kind = .blocks)
    (named : nestedTypeName c.options.prefixes .blocks (definitionName d.title d.uid) field =
      blockTypeMember) :
    ∃ u ∈ (finished c).units.toList, u.DeclaresItself := by
  have owner := isIdentifier_definitionName d.title d.uid
  have blocks : field.kind = NestedRole.blocks.kind := kind
  obtain ⟨key, done, qualified⟩ :=
    (definition_grown coherent registered).covers.nested_done declared blocks
  obtain ⟨u, member, same⟩ := (finished_consistent c).exists_unit done
  have directory := isIdentifier_nestedDirectory owner .blocks
  have plain : ∀ segment ∈ [nestedDirectory (definitionName d.title d.uid) .blocks,
      blockTypeMember], '.' ∉ segment.toList := by
    intro segment among
    apply notMem_of_isIdentifier _ (by decide)
    rcases List.mem_cons.mp among with rfl | last
    · exact directory
    · exact List.mem_singleton.mp last ▸ by decide
  have found : u.qualifiedName = c.qualified
      (c.rootScope ++ [nestedDirectory (definitionName d.title d.uid) .blocks])
      blockTypeMember := by
    rw [same, qualified, Site.nestedName]
    exact congrArg _ named
  obtain ⟨placed, called⟩ := finished_found member
    [nestedDirectory (definitionName d.title d.uid) .blocks] blockTypeMember (Nat.le_refl 1) plain
    found
  refine ⟨u, member, ?_⟩
  cases finished_made member with
  | support known =>
    have root := (mem_supportUnits known).2.1.symm.trans placed
    simp at root
  | @blockSet p s other _ site _ _ own =>
    refine (declaresItself_block_iff own).mpr ⟨?_, called⟩
    simp only [Site.blockUnits, blockSet, List.mem_cons, List.not_mem_nil, or_false] at own
    have ending (suffix wrapper : String) (same : wrapper ++ suffix = blockTypeMember) :
        suffix.toList <:+ blockTypeMember.toList :=
      ⟨wrapper.toList, by rw [← same, String.toList_append]⟩
    rcases own with rfl | rfl | rfl
    · exact absurd (ending _ _ called) (by decide)
    · rfl
    · exact absurd (ending _ _ called) (by decide)
  | @model p s o _ site outlines =>
    have here : s.name = blockTypeMember := outlines.name.symm.trans called
    have below : s.directory = nestedScope c.rootScope (definitionName d.title d.uid) .blocks :=
      outlines.scope.symm.trans placed
    cases site with
    | definition =>
      have lengths := congrArg List.length below
      simp [Site.ofDefinition, nestedScope] at lengths
    | @nested _ t _ _ owner nests =>
      cases nests with
      | group =>
        obtain ⟨_, _, role⟩ := nestedScope_injective below
        cases role
      | @variant _ _ other v =>
        -- the name of a variant has capitals of its owner, of the field and of its own
        have total : (t.variantName c other v).toList.countP Char.isUpper = 2 := by
          rw [show t.variantName c other v = blockTypeMember from here]
          decide
        have wrapper := capitals_nestedTypeName c.options.prefixes .blocks t.name other
        have own := (capitalized_firstName v.uid [v.title, v.uid]).countP_pos
        have above := owner.capitals.1
        rw [Site.variantName, Site.nestedName, variantTypeName, String.toList_append,
          List.countP_append, typeNameOr] at total
        omega

theorem finished_declaresItself_iff (coherent : c.registry.Coherent) :
    (∃ u ∈ (finished c).units.toList, u.DeclaresItself) ↔
      ∃ d ∈ c.registry.all, Echoes c.options d := by
  constructor
  · rintro ⟨u, member, itself⟩
    exact (finished_made member).echoes itself
  · rintro ⟨d, registered, fixed | ⟨declared, kind, named⟩⟩
    · exact exists_declaresItself_entry registered fixed
    · exact exists_declaresItself_wrapper coherent registered declared kind named

theorem Options.Valid.echoes_iff {options : Options} (valid : options.Valid) (d : Definition) :
    Echoes options d ↔ definitionName d.title d.uid ∈ entryMembers := by
  refine ⟨fun echoes => ?_, .entry⟩
  cases echoes with
  | entry fixed => exact fixed
  | @wrapper field _ _ named =>
    have inner := innerCapitals_nestedTypeName valid.prefixes .blocks
      (isIdentifier_definitionName d.title d.uid)
      (capitalized_firstName d.uid [d.title, d.uid]).countP_pos field
    rw [show nestedTypeName _ _ _ _ = blockTypeMember from named] at inner
    exact absurd inner (by decide)

theorem generate_declaresItself_iff {registry : Registry} (built : registry.Built)
    (options : Options) :
    ∃ output, generate registry options = .ok output ∧
      (∀ u ∈ output.units, u.kind = .model ∨ u.kind = .wrapper → ∀ nullable,
        Spelling.IsClass nullable u (Spelling.classDeclarations nullable u)) ∧
      ((∃ u ∈ output.units, u.DeclaresItself) ↔ ∃ d ∈ registry.all, Echoes options d) ∧
      (options.Valid → ((∃ u ∈ output.units, u.DeclaresItself) ↔
        ∃ d ∈ registry.all, definitionName d.title d.uid ∈ entryMembers)) := by
  have equivalent := @finished_declaresItself_iff ⟨registry, options⟩ built.coherent
  refine ⟨_, generate_eq registry options, fun _ _ kind nullable => Spelling.isClass nullable kind,
    equivalent, fun valid => equivalent.trans ?_⟩
  simp only [valid.echoes_iff]

def identifiers : Registry := .ofList [.new "page" "Uid" [.new "body" .text]]

theorem identifiers_declaresItself_iff :
    identifiers.Built ∧ Options.Valid { supportUnits := false } ∧
    ∃ output, generate identifiers { supportUnits := false } = .ok output ∧
      (∀ u ∈ output.units, u.kind = .model ∨ u.kind = .wrapper → ∀ nullable,
        Spelling.IsClass nullable u (Spelling.classDeclarations nullable u)) ∧
      ((∃ u ∈ output.units, u.DeclaresItself) ↔
        ∃ d ∈ identifiers.all, Echoes { supportUnits := false } d) ∧
      ((∃ u ∈ output.units, u.DeclaresItself) ↔
        ∃ d ∈ identifiers.all, definitionName d.title d.uid ∈ entryMembers) := by
  have built : identifiers.Built := .extend .empty _
  have valid : Options.Valid { supportUnits := false } := ⟨by decide, by decide, by decide⟩
  obtain ⟨output, generated, classes, echoes, fixed⟩ :=
    generate_declaresItself_iff built { supportUnits := false }
  exact ⟨built, valid, output, generated, classes, echoes, fixed valid⟩

theorem identifiers_declare_themselves :
    ∃ output, generate identifiers { supportUnits := false } = .ok output ∧
      output.diagnostics = [] ∧ ∃ u ∈ output.units, u.kind = .model ∧ u.name = "Uid" ∧
        u.declaredNames (some "page") = ["ContentType", "Uid", "ContentTypeUid", "Body"] ∧
        Spelling.IsClass false u (Spelling.classDeclarations false u) ∧ u.DeclaresItself := by
  have written : (generate identifiers { supportUnits := false }).toOption.map (fun output =>
      (output.diagnostics,
        output.units.map fun u => (u.body, u.name, u.declaredNames (some "page")))) =
        some ([], [(.model (some "page"), "Uid",
          ["ContentType", "Uid", "ContentTypeUid", "Body"])]) := by
    decide +kernel
  have generated := generate_eq identifiers { supportUnits := false }
  rw [generated] at written
  obtain ⟨silent, shown⟩ := Prod.mk.inj (Option.some.inj written)
  obtain ⟨u, member, same⟩ := List.mem_map.mp (shown ▸ List.mem_singleton_self _ :
    (_, _, _) ∈ (finished ⟨identifiers, { supportUnits := false }⟩).output.units.map _)
  simp only [Prod.mk.injEq] at same
  obtain ⟨body, named, declared⟩ := same
  have model : u.kind = .model := congrArg UnitBody.kind body
  refine ⟨_, generated, silent, u, member, model, named, declared, Spelling.isClass _ (.inl model),
    (GeneratedUnit.declaresItself_model body).mpr ?_⟩
  rw [declared, named]
  decide

end Emission

end ContentModels
