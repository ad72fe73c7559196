import ContentModels.Proofs.Emission.Provenance
import ContentModels.Proofs.Emission.Tags
import ContentModels.Proofs.Emission.Uniqueness
import ContentModels.Proofs.Spelling.Tree

set_option autoImplicit false

namespace ContentModels.Emission

open Naming

variable {c : Context}

-- Emissions in which the units of a blocks field follow each other.
inductive Grouped (c : Context) : List GeneratedUnit → Prop
  | nil : Grouped c []
  | other {u : GeneratedUnit} {rest : List GeneratedUnit} (untagged : u.body.tags? = none)
      (later : Grouped c rest) : Grouped c (u :: rest)
  | set (scope : Scope) (wrapper : String) (tags : List VariantTag)
      {rest : List GeneratedUnit} (later : Grouped c rest) :
      Grouped c (blockSet c scope wrapper tags ++ rest)

theorem Grouped.append {first rest : List GeneratedUnit} (grouped : Grouped c first)
    (later : Grouped c rest) : Grouped c (first ++ rest) := by
  induction grouped with
  | nil => exact later
  | other untagged _ ih => exact .other untagged ih
  | set scope wrapper tags _ ih =>
    rw [List.append_assoc]
    exact .set scope wrapper tags ih

theorem grouped_of_untagged {units : List GeneratedUnit}
    (untagged : ∀ u ∈ units, u.body.tags? = none) : Grouped c units := by
  induction units with
  | nil => exact .nil
  | cons u rest ih =>
    exact .other (untagged u List.mem_cons_self)
      (ih fun other member => untagged other (List.mem_cons_of_mem u member))

theorem qualified_append (scope : Scope) (name suffix : String) :
    c.qualified scope (name ++ suffix) = c.qualified scope name ++ suffix := by
  simp only [Context.qualified_eq, String.append_assoc]

section blockSet

variable {scope : Scope} {wrapper : String} {tags : List VariantTag} {u : GeneratedUnit}

theorem blockSet_qualifiedName (member : u ∈ blockSet c scope wrapper tags) :
    u.qualifiedName = c.qualified scope u.name := by
  obtain ⟨namespaced, rfl, _⟩ := mem_blockSet member
  exact qualifiedName_eq c namespaced

theorem blockSet_tagEnum (member : u ∈ blockSet c scope wrapper tags) {own : List VariantTag}
    (body : u.body = .tagEnum own) : u.name = tagEnumName wrapper := by
  simp only [blockSet, List.mem_cons, List.not_mem_nil, or_false] at member
  rcases member with rfl | rfl | rfl
  · rfl
  · cases body
  · cases body

theorem blockSet_converter (member : u ∈ blockSet c scope wrapper tags) {base tagEnum : String}
    {own : List VariantTag} (body : u.body = .converter (.keyPresence base tagEnum own)) :
    u.name = converterName wrapper ∧ base = wrapper ∧ tagEnum = tagEnumName wrapper := by
  simp only [blockSet, List.mem_cons, List.not_mem_nil, or_false] at member
  rcases member with rfl | rfl | rfl
  · cases body
  · cases body
  · cases body
    exact ⟨rfl, rfl, rfl⟩

theorem blockSet_named (c : Context) (scope : Scope) (wrapper : String) (tags : List VariantTag) :
    (∃ u ∈ blockSet c scope wrapper tags, u.qualifiedName = c.qualified scope wrapper ++ "Enum") ∧
      ∃ u ∈ blockSet c scope wrapper tags,
        u.qualifiedName = c.qualified scope wrapper ++ "Converter" := by
  have named {u : GeneratedUnit} (member : u ∈ blockSet c scope wrapper tags) {suffix : String}
      (same : u.name = wrapper ++ suffix) :
      ∃ u ∈ blockSet c scope wrapper tags,
        u.qualifiedName = c.qualified scope wrapper ++ suffix :=
    ⟨u, member, by rw [blockSet_qualifiedName member, same, qualified_append]⟩
  constructor
  · exact named List.mem_cons_self rfl
  · exact named (List.mem_cons_of_mem _ (List.mem_cons_of_mem _ List.mem_cons_self)) rfl

end blockSet

theorem Grouped.agree {units : List GeneratedUnit} (grouped : Grouped c units) {base : String}
    {k t : GeneratedUnit} (first : units.find? (·.qualifiedName = base ++ "Converter") = some k)
    (second : units.find? (·.qualifiedName = base ++ "Enum") = some t)
    {wrapper tagEnum : String} {arms tags : List VariantTag}
    (converts : k.body = .converter (.keyPresence wrapper tagEnum arms))
    (lists : t.body = .tagEnum tags) : tags = arms := by
  induction grouped with
  | nil => cases first
  | @other u rest untagged later ih =>
    have passed {v : GeneratedUnit} {name : String} {own : List VariantTag}
        (found : (u :: rest).find? (·.qualifiedName = name) = some v)
        (holds : v.body.tags? = some own) : rest.find? (·.qualifiedName = name) = some v := by
      rw [List.find?_cons] at found
      split at found
      · cases found
        rw [untagged] at holds
        cases holds
      · exact found
    exact ih (passed first (congrArg UnitBody.tags? converts))
      (passed second (congrArg UnitBody.tags? lists))
  | @set scope name own rest later ih =>
    obtain ⟨⟨enum, enumMember, enumNamed⟩, converter, converterMember, converterNamed⟩ :=
      blockSet_named c scope name own
    have split {v : GeneratedUnit} {wanted : String}
        (found : (blockSet c scope name own ++ rest).find? (·.qualifiedName = wanted) = some v) :
        (v ∈ blockSet c scope name own ∧ v.qualifiedName = wanted) ∨
          (∀ u ∈ blockSet c scope name own, u.qualifiedName ≠ wanted) ∧
            rest.find? (·.qualifiedName = wanted) = some v := by
      rw [List.find?_append] at found
      cases here : (blockSet c scope name own).find? (·.qualifiedName = wanted) with
      | some u =>
        rw [here] at found
        cases found
        exact .inl ⟨List.mem_of_find?_eq_some here, by simpa using List.find?_some here⟩
      | none =>
        rw [here] at found
        exact .inr ⟨fun u member => by simpa using List.find?_eq_none.mp here u member, found⟩
    rcases split first with ⟨kMember, kNamed⟩ | ⟨kElsewhere, kLater⟩
    · -- the converter is of this field, and so the enum under its name is the one of this field
      have same : c.qualified scope name = base := by
        rw [blockSet_qualifiedName kMember, (blockSet_converter kMember converts).1, converterName,
          qualified_append] at kNamed
        exact (String.append_left_inj _).mp kNamed
      rcases split second with ⟨tMember, _⟩ | ⟨tElsewhere, _⟩
      · rw [blockSet_tags? kMember (congrArg UnitBody.tags? converts),
          blockSet_tags? tMember (congrArg UnitBody.tags? lists)]
      · exact absurd (same ▸ enumNamed) (tElsewhere enum enumMember)
    · rcases split second with ⟨tMember, tNamed⟩ | ⟨_, tLater⟩
      · have same : c.qualified scope name = base := by
          rw [blockSet_qualifiedName tMember, blockSet_tagEnum tMember lists, tagEnumName,
            qualified_append] at tNamed
          exact (String.append_left_inj _).mp tNamed
        exact absurd (same ▸ converterNamed) (kElsewhere converter converterMember)
      · exact ih kLater tLater

def Whole (c : Context) (plans : List Plan) : Prop :=
  ∀ l, Grouped c ((Plan.allEntries c plans l).filterMap Entry.emitted?)

theorem whole_nil : Whole c [] := fun _ => .nil

theorem Whole.cons {plan : Plan} {rest : List Plan}
    (first : ∀ l, Grouped c ((plan.entries c l).filterMap Entry.emitted?)) (later : Whole c rest) :
    Whole c (plan :: rest) := by
  intro l
  rw [Plan.allEntries, List.filterMap_append]
  exact (first l).append (later _)

theorem Whole.note {rest : List Plan} (later : Whole c rest) (diagnostics : List Diagnostic) :
    Whole c (.note diagnostics :: rest) :=
  later.cons fun _ => .nil

theorem Whole.model {nested rest : List Plan} (inner : Whole c nested) (later : Whole c rest)
    (o : Outline) : Whole c (.model o nested :: rest) := by
  apply later.cons
  intro l
  have own : Grouped c [o.unit c] := .other rfl .nil
  rw [Plan.entries]
  split
  · exact own
  · simp only [List.filterMap_cons, List.filterMap_append, Entry.emitted?, List.filterMap_nil]
    exact (inner _).append own

theorem Whole.append {first rest : List Plan} (whole : Whole c first) (later : Whole c rest) :
    Whole c (first ++ rest) := by
  intro l
  rw [Plan.allEntries_append, List.filterMap_append]
  exact (whole l).append (later _)

theorem units_emitted (uid : GeneratedUnit → String) (role : Role) (units : List GeneratedUnit)
    (l : Ledger) :
    (Plan.allEntries c (units.map fun u => .unit (uid u) role u) l).filterMap Entry.emitted? =
      units := by
  induction units generalizing l with
  | nil => rfl
  | cons u rest ih =>
    rw [List.map_cons, Plan.allEntries, List.filterMap_append, ih, Plan.entries]
    split <;> rfl

theorem supportPlans_whole (c : Context) : Whole c (supportPlans c) := by
  intro l
  rw [supportPlans, units_emitted GeneratedUnit.name]
  exact grouped_of_untagged fun u member => supportUnits_tags? member

theorem setPlans_whole (b : BlockField) (uid : String) (variants : List Definition) :
    Whole c (b.setPlans c uid variants) := by
  intro l
  rw [BlockField.setPlans, units_emitted fun _ => uid]
  have alone := Grouped.set b.scope b.wrapper (b.tags [] (.reserving []) variants) (.nil : Grouped c [])
  rwa [List.append_nil] at alone

theorem variantPlan_whole {v : Definition}
    (inner : ∀ scope owner, Whole c (nestedPlans c scope owner v.fields)) (scope : Scope)
    (wrapper : String) : Whole c [variantPlan c scope wrapper v] := by
  cases origin : v.referenceTo with
  | some globalField =>
    rw [variantPlan_some c origin]
    exact (whole_nil.note _).model whole_nil _
  | none =>
    rw [variantPlan_none c origin]
    exact (inner _ _).model whole_nil _

theorem variantsPlans_whole (b : BlockField) (variants : List Definition)
    (inner : ∀ v ∈ variants, ∀ scope owner, Whole c (nestedPlans c scope owner v.fields))
    (seen : List String) (names : MemberNames) : Whole c (variantsPlans c b seen names variants) := by
  induction variants generalizing seen names with
  | nil => exact whole_nil
  | cons v rest ih =>
    have later := ih fun other member => inner other (List.mem_cons_of_mem v member)
    rw [variantsPlans]
    split
    · exact (later seen names).note _
    · exact (variantPlan_whole (inner v List.mem_cons_self) b.scope b.wrapper).append
        ((later _ _).note _)

theorem fieldPlans_whole {field : Field}
    (nested : ∀ scope owner, Whole c (nestedPlans c scope owner field.nested))
    (variants : ∀ v ∈ field.variants, ∀ scope owner, Whole c (nestedPlans c scope owner v.fields))
    (scope : Scope) (owner : String) (role : NestedRole) :
    Whole c (fieldPlans c scope owner role field) := by
  by_cases nests : field.kind = role.kind
  · cases role with
    | blocks =>
      rw [fieldPlans_blocks c nests]
      exact ((variantsPlans_whole _ _ variants _ _).append (setPlans_whole _ _ _)).note _
    | group =>
      rw [fieldPlans_group c nests]
      exact (nested _ _).model whole_nil _
  · rw [fieldPlans_other c nests]
    exact whole_nil

theorem fieldsPlans_whole (fields : List Field)
    (inner : ∀ field ∈ fields,
      (∀ scope owner, Whole c (nestedPlans c scope owner field.nested)) ∧
        ∀ v ∈ field.variants, ∀ scope owner, Whole c (nestedPlans c scope owner v.fields))
    (scope : Scope) (owner : String) (role : NestedRole) :
    Whole c (fieldsPlans c scope owner role fields) := by
  induction fields with
  | nil => exact whole_nil
  | cons field rest ih =>
    obtain ⟨nested, variants⟩ := inner field List.mem_cons_self
    rw [fieldsPlans]
    exact (fieldPlans_whole nested variants scope owner role).append
      (ih fun other member => inner other (List.mem_cons_of_mem field member))

theorem nestedPlans_whole (fields : List Field) :
    ∀ scope owner, Whole c (nestedPlans c scope owner fields) := by
  induction fields using fields_induction with
  | step fields inner =>
    intro scope owner
    exact (fieldsPlans_whole fields inner scope owner .blocks).append
      (fieldsPlans_whole fields inner scope owner .group)

theorem generationPlans_whole (c : Context) : Whole c (generationPlans c) := by
  have definitions (ds : List Definition) : Whole c (ds.map (definitionPlan c)) := by
    induction ds with
    | nil => exact whole_nil
    | cons d rest ih => exact (nestedPlans_whole d.fields _ _).model ih _
  have support : Whole c (if c.options.supportUnits then supportPlans c else []) := by
    split
    · exact supportPlans_whole c
    · exact whole_nil
  exact support.append (definitions c.registry.all)

theorem finished_agree {k t : GeneratedUnit} (kept : k ∈ (finished c).units.toList)
    (listed : t ∈ (finished c).units.toList) {base : String}
    (first : k.qualifiedName = base ++ "Converter") (second : t.qualifiedName = base ++ "Enum")
    {wrapper tagEnum : String} {arms tags : List VariantTag}
    (converts : k.body = .converter (.keyPresence wrapper tagEnum arms))
    (lists : t.body = .tagEnum tags) : tags = arms := by
  have grouped := generationPlans_whole c {}
  -- a unit that is kept is the first of those emitted under its name
  have found {u : GeneratedUnit} (member : u ∈ (finished c).units.toList) :
      ((Plan.allEntries c (generationPlans c) {}).filterMap Entry.emitted?).find?
        (·.qualifiedName = u.qualifiedName) = some u := by
    have keeps := Plan.allEntries_keeps c (generationPlans c) Ledger.empty_consistent u.qualifiedName
    have own := find?_of_nodup_map (finished_consistent c).distinct member
    exact keeps.symm.trans own
  exact grouped.agree (first ▸ found kept) (second ▸ found listed) converts lists

def displayName? (tags : List VariantTag) (member : String) : Option String :=
  (tags.find? (·.member = member)).map (·.uid)

-- The arm taken for an object, the first whose tag is displayed as a key of the object.
def takenArm? (tags arms : List VariantTag) (present : String → Bool) : Option VariantTag :=
  arms.find? fun arm => (displayName? tags arm.member).any present

theorem displayName?_own {tags : List VariantTag} (distinct : (tags.map (·.member)).Nodup)
    {tag : VariantTag} (member : tag ∈ tags) : displayName? tags tag.member = some tag.uid := by
  rw [displayName?, find?_of_nodup_map distinct member]
  rfl

theorem takenArm?_own {tags : List VariantTag} (distinct : (tags.map (·.member)).Nodup)
    (present : String → Bool) : takenArm? tags tags present = tags.find? (present ·.uid) := by
  apply List.find?_congr
  intro tag member
  rw [displayName?_own distinct member]
  rfl

-- The line before the declaration of a member of an enum.
def attached? (member : String) : List Code → Option String
  | .line attached :: .line declared :: rest =>
    if declared = member ∨ declared = member ++ "," then some attached else attached? member rest
  | _ => none

theorem declares_iff {member other separator : String} (plain : ',' ∉ member.toList)
    (clear : ',' ∉ other.toList) (comma : separator = "" ∨ separator = ",") :
    (other ++ separator = member ∨ other ++ separator = member ++ ",") ↔ other = member := by
  rcases comma with rfl | rfl
  · have longer : other ≠ member ++ "," := by
      rintro rfl
      simp at clear
    simp [longer]
  · have shorter : other ++ "," ≠ member := by
      rintro rfl
      simp at plain
    simp [shorter]

theorem enumMembers_attached? {tags : List VariantTag} {member : String}
    (clear : ∀ tag ∈ tags, ',' ∉ tag.member.toList) (plain : ',' ∉ member.toList) :
    attached? member (Spelling.enumMembers tags) = (displayName? tags member).map fun uid =>
      "[DisplayName(displayName: " ++ Spelling.quoted uid ++ ")]" := by
  induction tags with
  | nil => rfl
  | cons tag tags ih =>
    obtain ⟨own, others⟩ := List.forall_mem_cons.mp clear
    have comma : (if tags.isEmpty then "" else ",") = "" ∨ (if tags.isEmpty then "" else ",") = "," := by
      cases tags <;> simp
    rw [Spelling.enumMembers, List.cons_append, List.cons_append, List.nil_append, attached?,
      ih others]
    simp only [declares_iff plain own comma, displayName?, List.find?_cons]
    by_cases same : tag.member = member <;> simp [same]

-- The body of the first block whose condition holds.
def branch? (holds : String → Bool) : List Code → Option (List Code)
  | .block condition body :: rest => if holds condition then some body else branch? holds rest
  | _ => none

theorem blockArms_branch? {tags arms : List VariantTag} {tagEnum : String}
    {present holds : String → Bool}
    (reads : ∀ arm ∈ arms, holds
      ("if (ContentstackHelper.FieldExists(ContentstackHelper.GetDescription(" ++
        (tagEnum ++ "." ++ arm.member) ++ "), jObject))") = (displayName? tags arm.member).any present) :
    branch? holds (arms.map (Spelling.blockArm tagEnum)) = (takenArm? tags arms present).map fun arm =>
      [.line (arm.variantType ++ " block = new " ++ arm.variantType ++ "();"),
        .line ("block.BlockType = " ++ (tagEnum ++ "." ++ arm.member) ++ ";"),
        .line "return block;"] := by
  induction arms with
  | nil => rfl
  | cons arm arms ih =>
    obtain ⟨own, others⟩ := List.forall_mem_cons.mp reads
    rw [List.map_cons, Spelling.blockArm, branch?, ih others, own, takenArm?, takenArm?,
      List.find?_cons]
    cases (displayName? tags arm.member).any present <;> rfl

structure Serves (units : List GeneratedUnit) (k : GeneratedUnit) (wrapper tagEnum : String)
    (arms : List VariantTag) (variants : List Definition) : Prop where
  order : arms.map VariantTag.variant = (firstVariants variants).map (typedVariant wrapper)
  uids : (arms.map (·.uid)).Nodup
  members : (arms.map (·.member)).Nodup
  enum : ∀ t ∈ units, t.namespaceName = k.namespaceName → t.name = tagEnum →
    ∀ tags, t.body = .tagEnum tags → tags = arms ∧
      (∀ arm ∈ arms, displayName? tags arm.member = some arm.uid) ∧
      ∀ present : String → Bool, (takenArm? tags arms present).map VariantTag.variant =
        (variants.find? (present ·.uid)).map (typedVariant wrapper)

theorem generate_serves (registry : Registry) (options : Options) :
    ∃ output, generate registry options = .ok output ∧ ∀ k ∈ output.units,
      ∀ wrapper tagEnum arms, k.body = .converter (.keyPresence wrapper tagEnum arms) →
        ∃ p s field, At ⟨registry, options⟩ registry.all p s ∧ field ∈ s.declared ∧
          field.kind = .blocks ∧ s.HoldsBlocks ⟨registry, options⟩ field k ∧
          Serves output.units k wrapper tagEnum arms field.variants := by
  refine ⟨_, generate_eq registry options, fun k kept wrapper tagEnum arms converts => ?_⟩
  obtain ⟨p, s, field, site, declared, kind, own, rfl⟩ :=
    exists_tagged kept (congrArg UnitBody.tags? converts)
  obtain ⟨named, rfl, rfl⟩ := blockSet_converter own converts
  refine ⟨p, s, field, site, declared, kind, Site.holdsBlocks own, ?_⟩
  let b := s.blockField ⟨registry, options⟩ field
  have distinct : ((s.tags ⟨registry, options⟩ field).map (·.member)).Nodup :=
    b.tags_members_nodup [] (.reserving []) field.variants
  refine ⟨?_, b.tags_uids_nodup [] (.reserving []) field.variants, distinct, ?_⟩
  · have every : field.variants.filter (·.uid ∉ []) = field.variants := by simp
    have order := b.tags_firstVariants [] (.reserving []) field.variants
    rwa [every] at order
  · intro t listed beside called tags lists
    have first : k.qualifiedName = k.namespaceName ++ "." ++ b.wrapper ++ "Converter" := by
      rw [finished_qualifiedName kept, named, converterName, ← String.append_assoc]
    have second : t.qualifiedName = k.namespaceName ++ "." ++ b.wrapper ++ "Enum" := by
      rw [finished_qualifiedName listed, beside, called, tagEnumName, ← String.append_assoc]
    obtain rfl := finished_agree kept listed first second converts lists
    refine ⟨rfl, fun arm member => displayName?_own distinct member, fun present => ?_⟩
    rw [takenArm?_own distinct]
    exact b.tags_find? (by simp) (.reserving []) field.variants

end ContentModels.Emission
