import ContentModels.Proofs.Config
import ContentModels.Proofs.Emission.Visibility
import ContentModels.Proofs.Spelling.Tree

set_option autoImplicit false

namespace ContentModels

namespace Naming

def innerCapitals (s : String) : Nat := s.toList.tail.countP Char.isUpper

theorem innerCapitals_append {s : String} (some : s ≠ "") (t : String) :
    innerCapitals (s ++ t) = innerCapitals s + t.toList.countP Char.isUpper := by
  have letters : s.toList ≠ [] := by simpa using some
  rw [innerCapitals, String.toList_append, List.tail_append_of_ne_nil letters, List.countP_append]
  rfl

theorem Capitalized.countP_pos {s : String} (capital : Capitalized s) :
    0 < s.toList.countP Char.isUpper := by
  obtain ⟨c, rest, written, upper⟩ := capital
  exact List.countP_pos_iff.mpr ⟨c, by simp [written], upper⟩

theorem capitalized_iff {s : String} :
    Capitalized s ↔ s.toList.head?.any Char.isUpper = true := by
  unfold Capitalized
  cases s.toList <;> simp

theorem capitalized_typeName_of_capitalized {raw : String} (capital : Capitalized raw) :
    Capitalized (typeName raw) := by
  apply capitalized_typeName
  obtain ⟨c, rest, written, upper⟩ := capital
  have letter : isLetter c = true := by simp [isLetter_eq, Char.isAlpha, upper]
  simp [typeName, written, capitalWords, letter]

theorem innerCapitals_nestedTypeName {prefixes : Prefixes} (valid : prefixes.Valid)
    (role : NestedRole) {owner : String} (owned : Config.isIdentifier owner = true)
    (capital : 0 < owner.toList.countP Char.isUpper) (field : Field) :
    2 ≤ innerCapitals (nestedTypeName prefixes role owner field) := by
  have some := ne_empty_of_isIdentifier (valid.of role)
  have label := (capitalized_typeName_of_capitalized
    (capitalized_firstName field.uid [field.label, field.uid])).countP_pos
  rw [(nestedTypeName_eq valid role owned field).2, String.append_assoc, innerCapitals_append some,
    String.toList_append, List.countP_append]
  have same : typeNameOr field.label field.uid = firstName field.uid [field.label, field.uid] := rfl
  rw [same]
  omega

end Naming

open Naming

namespace TypeRef

def builtIn : List TypeRef :=
  [.string, .double, .dateTime, .asset, .bool, .richTextNode, .dynamic, .link, .opaqueObject]

def external : List TypeRef := [.dateTime, .asset, .richTextNode]

theorem builtIn_spellings : (builtIn.map Spelling.typeName).Nodup := by decide

theorem builtIn_plain {type : TypeRef} (known : type ∈ builtIn) :
    '<' ∉ (Spelling.typeName type).toList ∧ innerCapitals (Spelling.typeName type) < 2 := by
  revert type
  decide

theorem external_of_capitalized {type : TypeRef} (known : type ∈ builtIn)
    (capital : Capitalized (Spelling.typeName type)) : type ∈ external ∨ type = .link := by
  rw [capitalized_iff] at capital
  revert type
  decide

end TypeRef

namespace Resolver

variable (r : Resolver) (field : Field) (owner : String)

theorem reference_type_cases : (r.reference field owner).type = .opaqueObject ∨
    ∃ name, (r.reference field owner).type = .named name := by
  unfold reference
  split
  next => exact .inl rfl
  next =>
    split
    next => exact .inl rfl
    next =>
      split
      next => exact .inr ⟨_, rfl⟩
      next => exact .inl rfl

theorem element_type_cases : (r.element field owner).type ∈ TypeRef.builtIn ∨
    ∃ name, (r.element field owner).type = .named name := by
  have known : .opaqueObject ∈ TypeRef.builtIn := by decide
  unfold element
  split
  case h_6 => split <;> exact .inl (by decide)
  case h_8 | h_9 =>
    refine (r.reference_type_cases field owner).imp_left fun untyped => ?_
    rwa [untyped]
  case h_10 | h_11 => exact .inr ⟨_, rfl⟩
  case h_12 => exact .inl known
  all_goals exact .inl (by decide)

theorem resolve_type_cases : (r.resolve field owner).type = (r.element field owner).type ∨
    (r.resolve field owner).type = .list (r.element field owner).type := by
  unfold resolve
  dsimp only
  split
  · exact .inr rfl
  · exact .inl rfl

end Resolver

namespace Emission

variable {c : Context}

inductive Element (c : Context) : TypeRef → Prop
  | builtIn {type : TypeRef} (known : type ∈ TypeRef.builtIn) : Element c type
  | nested {name : String} (valid : Config.isIdentifier name = true)
      (long : 2 ≤ innerCapitals name) : Element c (.named name)
  | definition {d : Definition} (registered : d ∈ c.registry.all) :
      Element c (.named (definitionName d.title d.uid))

theorem supportUnits_member_type {registry : Registry} {path directory : List String}
    {u : GeneratedUnit} (known : u ∈ supportUnits registry path directory) {m : Member}
    (member : m ∈ u.members) : m.type = .string := by
  simp only [supportUnits, List.mem_cons, List.not_mem_nil, or_false] at known
  rcases known with rfl | rfl | rfl | rfl | rfl
  case inl =>
    simp only [linkMembers, List.mem_cons, List.not_mem_nil, or_false] at member
    rcases member with rfl | rfl <;> rfl
  all_goals simp at member

section elements

variable (valid : c.options.Valid)

include valid

theorem At.capital {roots : List Definition} {p : Position} {s : Site} (site : At c roots p s) :
    0 < s.name.toList.countP Char.isUpper := by
  obtain ⟨d, _, roles, spelled⟩ := site.spelled valid
  obtain ⟨rest, written⟩ := spelled.toList_eq
  have capital := (capitalized_firstName d.uid [d.title, d.uid]).countP_pos
  have same : definitionName d.title d.uid = firstName d.uid [d.title, d.uid] := rfl
  rw [written, List.countP_append, List.countP_append, same]
  omega

theorem At.owner_capital {roots : List Definition} {p : Position} {s : Site}
    (site : At c roots p s) (some : s.fields ≠ []) : 0 < s.owner.toList.countP Char.isUpper := by
  rcases site.content_cases with own | none | ⟨_, g, _, global⟩
  · have owner : s.owner = s.name := congrArg Content.owner own
    rw [owner]
    exact site.capital valid
  · exact absurd (congrArg Content.fields none) some
  · have owner : s.owner = definitionName g.title g.uid := congrArg Content.owner global
    rw [owner]
    exact (capitalized_firstName g.uid [g.title, g.uid]).countP_pos

theorem resolve_element {p : Position} {s : Site} (site : At c c.registry.all p s) {field : Field}
    (among : field ∈ s.fields) (coherent : c.registry.Coherent) :
    Element c (c.resolver.element field s.owner).type := by
  rcases c.resolver.element_type_cases field s.owner with known | ⟨name, named⟩
  case inl => exact .builtIn known
  case inr =>
    have mentioned : name ∈ (c.resolver.resolve field s.owner).type.names := by
      rw [Resolver.resolve_type_names, named]
      exact List.mem_singleton_self name
    rw [named]
    rcases Site.mentioned_cases mentioned with ⟨role, _, rfl, _⟩ | ⟨uid, d, found, rfl, _⟩
    · obtain ⟨owned, _⟩ := site.home_plain valid
      have capital := site.owner_capital valid (List.ne_nil_of_mem among)
      exact .nested (isIdentifier_nestedTypeName valid.prefixes role owned field)
        (innerCapitals_nestedTypeName valid.prefixes role owned capital field)
    · exact .definition ((coherent.lookup_eq_some uid d).mp found).1

theorem finished_element (coherent : c.registry.Coherent) {u : GeneratedUnit}
    (inside : u ∈ (finished c).units.toList) {m : Member} (member : m ∈ u.members) :
    ∃ type, Element c type ∧ (m.type = type ∨ m.type = .list type) := by
  cases finished_made inside with
  | support known =>
    exact ⟨.string, .builtIn (by decide), .inl (supportUnits_member_type known member)⟩
  | @blockSet p s field _ site declared kind own =>
    rcases blockSet_members own with ⟨_, called, members⟩ | ⟨_, members⟩
    case inr => simp [members] at member
    case inl =>
      rw [members, List.mem_singleton] at member
      have called : u.name = s.nestedName c .blocks field := called
      have plain := site.plain valid
      have long := innerCapitals_nestedTypeName valid.prefixes .blocks plain.name
        (site.capital valid) field
      have wrapper := plain.nestedName valid .blocks field
      refine ⟨.named (tagEnumName u.name), .nested ?_ ?_, .inl (by rw [member])⟩
      · rw [called]
        exact isIdentifier_tagEnumName wrapper
      · rw [called, tagEnumName, innerCapitals_append (ne_empty_of_isIdentifier wrapper)]
        exact long.trans (Nat.le_add_right _ _)
  | model site outlines =>
    obtain ⟨field, among, typed⟩ := outlines.models.exists_field member
    rw [← typed]
    exact ⟨_, resolve_element valid site among coherent,
      c.resolver.resolve_type_cases field _⟩

end elements

namespace Element

theorem plain {type : TypeRef} (element : Element c type) :
    '<' ∉ (Spelling.typeName type).toList := by
  cases element with
  | builtIn known => exact (TypeRef.builtIn_plain known).1
  | nested valid => exact notMem_of_isIdentifier valid (by decide)
  | definition => exact notMem_of_isIdentifier (isIdentifier_definitionName _ _) (by decide)

theorem builtIn_or_named {type : TypeRef} (element : Element c type) :
    type ∈ TypeRef.builtIn ∨ ∃ name, type = .named name := by
  cases element with
  | builtIn known => exact .inl known
  | nested => exact .inr ⟨_, rfl⟩
  | definition => exact .inr ⟨_, rfl⟩

theorem spelling_cases {first second type other : TypeRef} (element : Element c first)
    (otherElement : Element c second) (typed : type = first ∨ type = .list first)
    (otherTyped : other = second ∨ other = .list second)
    (same : Spelling.typeName type = Spelling.typeName other) :
    Spelling.typeName first = Spelling.typeName second ∧
      (type = first ∧ other = second ∨ type = .list first ∧ other = .list second) := by
  have bracket (item : TypeRef) : '<' ∈ (Spelling.typeName (.list item)).toList := by
    simp [Spelling.typeName]
  rcases typed with rfl | rfl <;> rcases otherTyped with rfl | rfl
  · exact ⟨same, .inl ⟨rfl, rfl⟩⟩
  · exact absurd (same ▸ bracket second) element.plain
  · exact absurd (same ▸ bracket first) otherElement.plain
  · exact ⟨by simpa [Spelling.typeName] using same, .inr ⟨rfl, rfl⟩⟩

variable (linkless : ∀ d ∈ c.registry.all, definitionName d.title d.uid ≠ linkType)

include linkless

theorem exists_eclipse {name : String} (element : Element c (.named name)) {type : TypeRef}
    (known : type ∈ TypeRef.builtIn) (same : name = Spelling.typeName type) :
    type ∈ TypeRef.external ∧ ∃ d ∈ c.registry.all, name = definitionName d.title d.uid := by
  cases element with
  | builtIn other => simp [TypeRef.builtIn] at other
  | nested _ long =>
    have short := (TypeRef.builtIn_plain known).2
    rw [← same] at short
    omega
  | @definition d registered =>
    have capital := capitalized_firstName d.uid [d.title, d.uid]
    rcases TypeRef.external_of_capitalized known (same ▸ capital) with external | rfl
    · exact ⟨external, d, registered, rfl⟩
    · exact absurd same (linkless d registered)

theorem eq_or_eclipse {first second : TypeRef} (element : Element c first)
    (other : Element c second) (same : Spelling.typeName first = Spelling.typeName second) :
    first = second ∨ ∃ d ∈ c.registry.all, ∃ type ∈ TypeRef.external,
      definitionName d.title d.uid = Spelling.typeName type ∧
        (first = .named (definitionName d.title d.uid) ∧ second = type ∨
          second = .named (definitionName d.title d.uid) ∧ first = type) := by
  rcases element.builtIn_or_named with known | ⟨name, rfl⟩ <;>
    rcases other.builtIn_or_named with otherKnown | ⟨otherName, rfl⟩
  · exact .inl (List.inj_on_of_nodup_map TypeRef.builtIn_spellings known otherKnown same)
  · obtain ⟨external, d, registered, rfl⟩ := other.exists_eclipse linkless known same.symm
    exact .inr ⟨d, registered, first, external, same.symm, .inr ⟨rfl, rfl⟩⟩
  · obtain ⟨external, d, registered, rfl⟩ := element.exists_eclipse linkless otherKnown same
    exact .inr ⟨d, registered, second, external, same, .inl ⟨rfl, rfl⟩⟩
  · exact .inl (congrArg TypeRef.named same)

end Element

end Emission

def SpelledApart (units : List GeneratedUnit) : Prop :=
  ∀ u ∈ units, ∀ v ∈ units, ∀ m ∈ u.members, ∀ n ∈ v.members, m.type ≠ n.type →
    Spelling.typeName m.type ≠ Spelling.typeName n.type

def Mentions (units : List GeneratedUnit) (type : TypeRef) : Prop :=
  ∃ u ∈ units, ∃ m ∈ u.members, m.type = type

-- Whether members have two types, both of them alone or both of them in lists.
def MentionsBoth (units : List GeneratedUnit) (first second : TypeRef) : Prop :=
  Mentions units first ∧ Mentions units second ∨
    Mentions units (.list first) ∧ Mentions units (.list second)

namespace Emission

theorem not_spelledApart {units : List GeneratedUnit} {first second : TypeRef}
    (different : first ≠ second) (same : Spelling.typeName first = Spelling.typeName second)
    (both : MentionsBoth units first second) : ¬ SpelledApart units := by
  intro apart
  rcases both with ⟨⟨u, inside, m, member, typed⟩, v, kept, n, other, otherTyped⟩ |
    ⟨⟨u, inside, m, member, typed⟩, v, kept, n, other, otherTyped⟩
  all_goals
    have spelled := apart u inside v kept m member n other
    rw [typed, otherTyped] at spelled
  · exact spelled different same
  · exact spelled (by simpa using different) (by simp [Spelling.typeName, same])

variable {c : Context}

theorem definitionName_ne_linkType (quiet : ¬ (finished c).Colliding)
    (wanted : c.options.supportUnits = true) {d : Definition} (registered : d ∈ c.registry.all) :
    definitionName d.title d.uid ≠ linkType := by
  intro same
  let link : GeneratedUnit :=
    { name := linkType, namespacePath := c.namespacePath c.rootScope,
      directoryPath := c.rootScope, body := .link, members := linkMembers }
  have planned : .unit link.name .support link ∈ generationPlans c := by
    rw [generationPlans, if_pos wanted]
    refine List.mem_append_left _ (List.mem_map_of_mem ?_)
    simp [supportUnits, link]
  have done : (finished c).isCompleted (unitKey link.name .support link) = true :=
    finished_covers planned
  have named : link.qualifiedName = c.qualified c.rootScope linkType := qualifiedName_eq c rfl
  have keys := (finished_consistent c).key_unique quiet (definition_done registered) done
    ((congrArg (c.qualified c.rootScope) same).trans named.symm)
  cases congrArg Key.role keys

theorem finished_spelledApart_iff (valid : c.options.Valid) (coherent : c.registry.Coherent)
    (wanted : c.options.supportUnits = true) (quiet : ¬ (finished c).Colliding) :
    SpelledApart (finished c).units.toList ↔
      ∀ d ∈ c.registry.all, ∀ type ∈ TypeRef.external,
        definitionName d.title d.uid = Spelling.typeName type →
          ¬ MentionsBoth (finished c).units.toList (.named (definitionName d.title d.uid))
            type := by
  have linkless : ∀ d ∈ c.registry.all, definitionName d.title d.uid ≠ linkType :=
    fun _ registered => definitionName_ne_linkType quiet wanted registered
  constructor
  · intro apart d _ type external same both
    have different : .named (definitionName d.title d.uid) ≠ type := by
      rintro rfl
      simp [TypeRef.external] at external
    exact not_spelledApart different same both apart
  · intro clear u inside v kept m member n other different same
    obtain ⟨first, element, typed⟩ := finished_element valid coherent inside member
    obtain ⟨second, otherElement, otherTyped⟩ := finished_element valid coherent kept other
    have mention : Mentions (finished c).units.toList m.type := ⟨u, inside, m, member, rfl⟩
    have otherMention : Mentions (finished c).units.toList n.type := ⟨v, kept, n, other, rfl⟩
    obtain ⟨equal, alike⟩ := element.spelling_cases otherElement typed otherTyped same
    rcases element.eq_or_eclipse linkless otherElement equal with
      rfl | ⟨d, registered, type, external, named, ⟨rfl, rfl⟩ | ⟨rfl, rfl⟩⟩
    · rcases alike with ⟨here, there⟩ | ⟨here, there⟩ <;> exact different (here.trans there.symm)
    · refine clear d registered _ external named (alike.imp ?_ ?_) <;> rintro ⟨here, there⟩
      · exact ⟨here ▸ mention, there ▸ otherMention⟩
      · exact ⟨here ▸ mention, there ▸ otherMention⟩
    · refine clear d registered _ external named (alike.imp ?_ ?_) <;> rintro ⟨here, there⟩
      · exact ⟨there ▸ otherMention, here ▸ mention⟩
      · exact ⟨there ▸ otherMention, here ▸ mention⟩

theorem generate_spelledApart_iff {config : Config} (accepted : config.validate = .ok ())
    {registry : Registry} (built : registry.Built) (policy : ReferencePolicy) :
    ∃ output, generate registry (config.emissionOptions policy) = .ok output ∧
      ((∀ d ∈ output.diagnostics, d.kind ≠ .nameCollision) →
        (SpelledApart output.units ↔ ∀ d ∈ registry.all, ∀ type ∈ TypeRef.external,
          definitionName d.title d.uid = Spelling.typeName type →
            ¬ MentionsBoth output.units (.named (definitionName d.title d.uid)) type) ∧
        ((∀ d ∈ registry.all, definitionName d.title d.uid ∉ ["DateTime", "Asset", "Node"]) →
          SpelledApart output.units)) := by
  have valid := Config.emissionOptions_valid accepted policy
  refine ⟨_, generate_eq registry (config.emissionOptions policy), ?_⟩
  rw [Ledger.output_units, Ledger.output_diagnostics]
  intro quiet
  have equivalent := finished_spelledApart_iff (c := ⟨registry, config.emissionOptions policy⟩)
    valid built.coherent rfl (by rintro ⟨d, member, kind⟩; exact quiet d member kind)
  refine ⟨equivalent, fun clear => equivalent.mpr fun d registered type external same _ => ?_⟩
  apply clear d registered
  rw [same]
  exact List.mem_map_of_mem (f := Spelling.typeName) external

-- A content type that is named like the class of its images in the SDK.
def gallery : Registry := .ofList
  [.new "asset" "Asset" [],
    .new "page" "Page"
      [.new "image" .file, (Field.new "asset" .reference).withReference (.many ["asset"])]]

theorem gallery_shown {output : Output}
    (generated : generate gallery (Config.emissionOptions {} .asDeclared) = .ok output) :
    output.diagnostics = [] ∧ MentionsBoth output.units (.named "Asset") .asset := by
  have shown : (generate gallery (Config.emissionOptions {} .asDeclared)).toOption.map
      (fun output => (output.diagnostics,
        (output.units.any fun u => u.members.any fun m => m.type = .named "Asset"),
        output.units.any fun u => u.members.any fun m => m.type = .asset)) =
      some ([], true, true) := by
    decide +kernel
  rw [generated] at shown
  simp only [Except.toOption, Option.map_some, Option.some.injEq, Prod.mk.injEq] at shown
  obtain ⟨silent, model, sdk⟩ := shown
  refine ⟨silent, .inl ⟨?_, ?_⟩⟩
  · simpa [Mentions] using model
  · simpa [Mentions] using sdk

theorem gallery_spelledApart_iff : Config.validate {} = .ok () ∧ gallery.Built ∧
    ∃ output, generate gallery (Config.emissionOptions {} .asDeclared) = .ok output ∧
      (∀ d ∈ output.diagnostics, d.kind ≠ .nameCollision) ∧
      (SpelledApart output.units ↔ ∀ d ∈ gallery.all, ∀ type ∈ TypeRef.external,
        definitionName d.title d.uid = Spelling.typeName type →
          ¬ MentionsBoth output.units (.named (definitionName d.title d.uid)) type) := by
  have built : gallery.Built := .extend .empty _
  obtain ⟨output, generated, equivalent⟩ :=
    generate_spelledApart_iff Config.default_validate built .asDeclared
  have quiet : ∀ d ∈ output.diagnostics, d.kind ≠ .nameCollision := by
    simp [(gallery_shown generated).1]
  exact ⟨Config.default_validate, built, output, generated, quiet, (equivalent quiet).1⟩

theorem gallery_spelled_alike : Config.validate {} = .ok () ∧ gallery.Built ∧
    ∃ output, generate gallery (Config.emissionOptions {} .asDeclared) = .ok output ∧
      output.diagnostics = [] ∧ ¬ SpelledApart output.units := by
  have generated := generate_eq gallery (Config.emissionOptions {} .asDeclared)
  obtain ⟨silent, both⟩ := gallery_shown generated
  have different : TypeRef.named "Asset" ≠ .asset := nofun
  exact ⟨Config.default_validate, .extend .empty _, _, generated, silent,
    not_spelledApart different rfl both⟩

end Emission

end ContentModels
