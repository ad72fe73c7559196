import ContentModels.Proofs.Emission.Closure

set_option autoImplicit false

namespace ContentModels

open Naming

theorem TypeRef.mem_names_of_element {type : TypeRef} {name : String}
    (named : type.element = .named name) : name ∈ type.names := by
  induction type with
  | list item ih => exact ih named
  | named other => simpa [element, names, eq_comm] using named
  | _ => cases named

theorem Resolver.resolve_target {r : Resolver} {field : Field} {owner name : String}
    (kind : field.kind = .reference ∨ field.kind = .globalField)
    (named : (r.resolve field owner).type.element = .named name) :
    ∃ target uid d, field.reference = some target ∧ target.sole? = some uid ∧
      r.registry.lookup uid = some d ∧ name = definitionName d.title d.uid := by
  have member := TypeRef.mem_names_of_element named
  have element : r.element field owner = r.reference field owner := by
    unfold Resolver.element
    rcases kind with kind | kind <;> rw [kind]
  rw [Resolver.resolve_type_names, element] at member
  exact Resolver.reference_names member

theorem Registry.Coherent.uid_injective {r : Registry} (coherent : r.Coherent) {d e : Definition}
    (first : d ∈ r.all) (second : e ∈ r.all) (same : d.uid = e.uid) : d = e := by
  have here := (coherent.lookup_eq_some d.uid d).mpr ⟨first, rfl⟩
  have there := (coherent.lookup_eq_some d.uid e).mpr ⟨second, same.symm⟩
  exact Option.some.inj (here.symm.trans there)

namespace Emission

structure RootModel (c : Context) (uid name : String) (u : GeneratedUnit) : Prop where
  name : u.name = name
  namespaced : u.namespacePath = [c.options.namespaceName, c.options.directory]
  directory : u.directoryPath = [c.options.directory]
  body : u.body = .model (some uid)

theorem supportUnits_names {registry : Registry} {path directory : List String} :
    ((supportUnits registry path directory).map (·.name)).Nodup := by
  change [linkType, helperType, stringExtensionType, displayNameAttribute,
    embeddedObjectConverter].Nodup
  decide

-- Whether a name of the root scope is that of one unit, the model for a uid.
def Leads (c : Context) (units : List GeneratedUnit) (name uid : String) : Prop :=
  ∃ u ∈ units, RootModel c uid name u ∧
    ∀ v ∈ units, v.namespaceName = c.namespaceName c.rootScope → v.name = name → v = u

structure Identified (c : Context) (units : List GeneratedUnit) : Prop where
  names : ∀ d ∈ c.registry.all, ∀ e ∈ c.registry.all,
    definitionName d.title d.uid = definitionName e.title e.uid → d = e
  models : ∀ d ∈ c.registry.all, Leads c units (definitionName d.title d.uid) d.uid
  converter : c.options.supportUnits = true → ∃ u ∈ units, u.name = embeddedObjectConverter ∧
    u.namespacePath = c.namespacePath c.rootScope ∧ ∃ arms, u.body = .converter (.contentTypeUid arms)
  arms : ∀ u ∈ units, ∀ arms, u.body = .converter (.contentTypeUid arms) →
    arms.map (·.1) = c.registry.contentTypes.map (·.uid) ∧ ∀ arm ∈ arms, Leads c units arm.2 arm.1
  references : ∀ u ∈ units, u.kind = .model → ∃ p s, At c c.registry.all p s ∧ s.Models c u ∧
    ∀ (i : Nat) (field : Field) (m : Member), s.fields[i]? = some field → u.members[i]? = some m →
      field.kind = .reference ∨ field.kind = .globalField → ∀ name, m.type.element = .named name →
        ∃ uid, field.reference.bind ReferenceTarget.sole? = some uid ∧ Leads c units name uid

section quiet

variable {c : Context} (coherent : c.registry.Coherent) (quiet : ¬ (finished c).Colliding)

include coherent quiet

theorem definition_leads {d : Definition} (registered : d ∈ c.registry.all) :
    Leads c (finished c).units.toList (definitionName d.title d.uid) d.uid := by
  obtain ⟨u, member, target, emits, keyed, purpose⟩ :=
    exists_unit_of_done quiet (definition_done registered)
  obtain ⟨o, nested, rfl, outlines, _⟩ := purpose.ofDefinition coherent registered keyed
  cases emits
  have model : RootModel c d.uid (definitionName d.title d.uid) (o.unit c) :=
    ⟨outlines.name, congrArg c.namespacePath outlines.scope, outlines.scope,
      congrArg UnitBody.model outlines.contentTypeUid⟩
  refine ⟨_, member, model, fun v other beside called => ?_⟩
  apply List.inj_on_of_nodup_map (finished_consistent c).distinct other member
  rw [finished_qualifiedName other, finished_qualifiedName member, beside, called, model.name,
    GeneratedUnit.namespaceName, model.namespaced]
  rfl

theorem lookup_leads {uid : String} {d : Definition} (found : c.registry.lookup uid = some d) :
    Leads c (finished c).units.toList (definitionName d.title d.uid) uid := by
  obtain ⟨registered, rfl⟩ := (coherent.lookup_eq_some uid d).mp found
  exact definition_leads coherent quiet registered

theorem names_injective {d e : Definition} (first : d ∈ c.registry.all)
    (second : e ∈ c.registry.all)
    (same : definitionName d.title d.uid = definitionName e.title e.uid) : d = e := by
  have keys := (finished_consistent c).key_unique quiet (definition_done first)
    (definition_done second) (congrArg (c.qualified c.rootScope) same)
  exact coherent.uid_injective first second (congrArg Key.uid keys)

omit coherent in
theorem exists_converter (wanted : c.options.supportUnits = true) :
    ∃ u ∈ (finished c).units.toList, u.name = embeddedObjectConverter ∧
      u.namespacePath = c.namespacePath c.rootScope ∧
      u.body = .converter (.contentTypeUid (contentTypeArms c.registry)) := by
  let own : GeneratedUnit :=
    { name := embeddedObjectConverter
      namespacePath := c.namespacePath c.rootScope
      directoryPath := c.rootScope
      body := .converter (.contentTypeUid (contentTypeArms c.registry)) }
  have known : own ∈ supportUnits c.registry (c.namespacePath c.rootScope) c.rootScope := by
    simp [supportUnits, own]
  have planned : .unit own.name .support own ∈ generationPlans c := by
    rw [generationPlans, if_pos wanted]
    exact List.mem_append_left _ (List.mem_map_of_mem known)
  obtain ⟨u, member, target, emits, keyed, purpose⟩ :=
    exists_unit_of_done quiet (finished_covers planned)
  cases purpose with
  | note => cases emits
  | support _ other =>
    cases emits
    have named : u.name = embeddedObjectConverter := congrArg Key.uid (Option.some.inj keyed)
    obtain rfl : u = own := List.inj_on_of_nodup_map supportUnits_names other known named
    exact ⟨_, member, rfl, rfl, rfl⟩
  | blockSet => cases congrArg Key.role (Option.some.inj keyed)
  | model site outlines =>
    have role := congrArg Key.role (Option.some.inj keyed)
    exact absurd (outlines.role.symm.trans role) site.role_ne.1

theorem arms_lead {u : GeneratedUnit} (member : u ∈ (finished c).units.toList)
    {arms : List (String × String)} (body : u.body = .converter (.contentTypeUid arms)) :
    arms.map (·.1) = c.registry.contentTypes.map (·.uid) ∧
      ∀ arm ∈ arms, Leads c (finished c).units.toList arm.2 arm.1 := by
  have own : arms = contentTypeArms c.registry := by
    cases finished_made member with
    | support known =>
      simp only [supportUnits, List.mem_cons, List.not_mem_nil, or_false] at known
      rcases known with rfl | rfl | rfl | rfl | rfl <;> cases body
      rfl
    | blockSet _ _ _ inside =>
      simp only [Site.blockUnits, blockSet, List.mem_cons, List.not_mem_nil, or_false] at inside
      rcases inside with rfl | rfl | rfl <;> cases body
    | model => cases body
  subst own
  constructor
  · simp [contentTypeArms]
  · intro arm among
    obtain ⟨d, inside, rfl⟩ := List.mem_map.mp among
    exact definition_leads coherent quiet (List.mem_of_mem_filter inside)

theorem reference_leads {s : Site} {u : GeneratedUnit} (models : s.Models c u) {i : Nat}
    {field : Field} {m : Member} (declared : s.fields[i]? = some field)
    (member : u.members[i]? = some m) (kind : field.kind = .reference ∨ field.kind = .globalField)
    {name : String} (named : m.type.element = .named name) :
    ∃ uid, field.reference.bind ReferenceTarget.sole? = some uid ∧
      Leads c (finished c).units.toList name uid := by
  have pairs := congrArg (·[i]?) models.members
  simp only [List.getElem?_map, declared, member, Option.map_some, Option.some.injEq,
    Prod.mk.injEq] at pairs
  rw [pairs.2] at named
  obtain ⟨target, uid, d, refers, sole, found, rfl⟩ := Resolver.resolve_target kind named
  exact ⟨uid, by rw [refers]; exact sole, lookup_leads coherent quiet found⟩

theorem finished_identified : Identified c (finished c).units.toList where
  names _ first _ second same := names_injective coherent quiet first second same
  models _ registered := definition_leads coherent quiet registered
  converter wanted := by
    obtain ⟨u, member, named, placed, body⟩ := exists_converter quiet wanted
    exact ⟨u, member, named, placed, _, body⟩
  arms _ member _ body := arms_lead coherent quiet member body
  references u member model := by
    obtain ⟨_, _, _, _, site, outlines, rfl⟩ := (finished_made member).outlined model
    exact ⟨_, _, site, outlines.models, fun _ _ _ declared own kind _ named =>
      reference_leads coherent quiet outlines.models declared own kind named⟩

end quiet

theorem generate_identifies {registry : Registry} (built : registry.Built) (options : Options) :
    ∃ output, generate registry options = .ok output ∧
      ((∀ d ∈ output.diagnostics, d.kind ≠ .nameCollision) →
        Identified ⟨registry, options⟩ output.units) := by
  refine ⟨_, generate_eq registry options, fun quiet => ?_⟩
  apply finished_identified built.coherent
  rintro ⟨d, member, kind⟩
  exact quiet d member kind

def shelf : Registry := .ofList
  [.new "writer" "Writer" [.new "name" .text],
    .new "book" "Book"
      [(Field.new "author" .reference).withReference (.single "writer"),
        (Field.new "sequels" .reference).withReference (.many ["book"]),
        (Field.new "meta" .globalField).withReference (.single "seo")],
    (Definition.new "seo" "SEO" [.new "robots" .text]).withOrigin .globalField]

theorem shelf_identified : shelf.Built ∧ ∃ output, generate shelf {} = .ok output ∧
    (∀ d ∈ output.diagnostics, d.kind ≠ .nameCollision) ∧ Identified ⟨shelf, {}⟩ output.units := by
  have built : shelf.Built := .extend .empty _
  obtain ⟨output, generated, identified⟩ := generate_identifies built {}
  have silent : (generate shelf {}).toOption.map (·.diagnostics) = some [] := by
    decide +kernel
  rw [generated] at silent
  have empty : output.diagnostics = [] := Option.some.inj silent
  have quiet : ∀ d ∈ output.diagnostics, d.kind ≠ .nameCollision := by
    rw [empty]
    exact List.forall_mem_nil _
  exact ⟨built, output, generated, quiet, identified quiet⟩

end Emission

end ContentModels
