import ContentModels.Proofs.Emission.Position

set_option autoImplicit false

namespace ContentModels.Emission

open Naming

def Role.ownMembers : Role → List String
  | .entry => entryMembers
  | .blockVariant => [blockTypeMember]
  | _ => []

namespace Site

variable (c : Context)

def blockField (s : Site) (field : Field) : BlockField := .ofField c s.directory s.name field

def blockUnits (s : Site) (field : Field) : List GeneratedUnit :=
  let b := s.blockField c field
  blockSet c b.scope b.wrapper (b.tags [] (.reserving []) field.variants)

def plans (s : Site) : List Plan := nestedPlans c s.directory s.name s.declared

def Covered (s : Site) (l : Ledger) : Prop := ∀ plan ∈ s.plans c, l.Covers c plan

structure Outlines (s : Site) (o : Outline) (nested : List Plan) : Prop where
  uid : o.uid = s.uid
  role : o.role = s.role
  name : o.name = s.name
  scope : o.scope = s.directory
  owner : o.owner = s.owner
  fields : o.fields = s.fields
  imports : o.imports = nestedNamespaces c s.home s.owner s.fields
  reserved : o.reserved = s.name :: s.role.ownMembers
  contentTypeUid : o.contentTypeUid = if s.role = .entry then some s.uid else none
  bases : ∀ wrapper, s.wrapper = some wrapper → o.bases = [wrapper]
  wrapper : o.contentTypeUid = none → ∀ base ∈ o.bases, s.wrapper = some base
  covers : s.plans c ⊆ nested
  within : ∀ plan ∈ nested, plan ∈ s.plans c ∨ ∃ diagnostics, plan = .note diagnostics

theorem Outlines.key_eq {c : Context} {s : Site} {o : Outline} {nested : List Plan}
    (outlines : s.Outlines c o nested) : o.key c = s.key c := by
  rw [Outline.key, outlines.uid, outlines.role, outlines.name, outlines.scope]
  rfl

inductive Placed (s : Site) : Plan → Prop
  | note (diagnostics : List Diagnostic) : Placed s (.note diagnostics)
  | blockSet {field : Field} {u : GeneratedUnit} (declared : field ∈ s.declared)
      (kind : field.kind = .blocks) (member : u ∈ s.blockUnits c field) :
      Placed s (.unit field.uid .blockSet u)
  | model {branch : Branch} {t : Site} {o : Outline} {nested : List Plan}
      (nests : s.Nests c branch t) (outlines : t.Outlines c o nested) :
      Placed s (.model o nested)

end Site

variable {c : Context}

theorem mem_fieldsPlans {scope : Scope} {owner : String} {role : NestedRole} {fields : List Field}
    {plan : Plan} : plan ∈ fieldsPlans c scope owner role fields ↔
      ∃ field ∈ fields, plan ∈ fieldPlans c scope owner role field := by
  induction fields with
  | nil => simp [fieldsPlans]
  | cons field rest ih => simp [fieldsPlans, ih]

theorem mem_variantsPlans {b : BlockField} {variants : List Definition} {seen : List String}
    {names : MemberNames} {plan : Plan} (member : plan ∈ variantsPlans c b seen names variants) :
    (∃ diagnostics, plan = .note diagnostics) ∨
      ∃ v ∈ variants, plan = variantPlan c b.scope b.wrapper v := by
  induction variants generalizing seen names with
  | nil => simp [variantsPlans] at member
  | cons v rest ih =>
    have later {seen : List String} {names : MemberNames}
        (inside : plan ∈ variantsPlans c b seen names rest) :
        (∃ diagnostics, plan = .note diagnostics) ∨
          ∃ w ∈ v :: rest, plan = variantPlan c b.scope b.wrapper w := by
      rcases ih inside with note | ⟨w, among, same⟩
      · exact .inl note
      · exact .inr ⟨w, List.mem_cons_of_mem v among, same⟩
    by_cases known : seen.contains v.uid = true
    · rw [variantsPlans, if_pos known] at member
      rcases List.mem_cons.mp member with rfl | member
      · exact .inl ⟨_, rfl⟩
      · exact later member
    · rw [variantsPlans, if_neg known] at member
      rcases List.mem_cons.mp member with rfl | member
      · exact .inr ⟨v, List.mem_cons_self, rfl⟩
      · rcases List.mem_cons.mp member with rfl | member
        · exact .inl ⟨_, rfl⟩
        · exact later member

namespace Site

theorem mem_plans {s : Site} {plan : Plan} : plan ∈ s.plans c ↔
    (∃ field ∈ s.declared, field.kind = .blocks ∧ plan ∈ (s.blockField c field).plans c field) ∨
    (∃ field ∈ s.declared, field.kind = .group ∧
      plan = (Outline.ofGroup c (s.below .group) s.name field).plan c) := by
  have blocks (field : Field) : plan ∈ fieldPlans c s.directory s.name .blocks field ↔
      field.kind = .blocks ∧ plan ∈ (s.blockField c field).plans c field := by
    by_cases kind : field.kind = .blocks
    · rw [fieldPlans_blocks c kind]
      simp [kind, blockField]
    · rw [fieldPlans_other c kind]
      simp [kind]
  have group (field : Field) : plan ∈ fieldPlans c s.directory s.name .group field ↔
      field.kind = .group ∧ plan = (Outline.ofGroup c (s.below .group) s.name field).plan c := by
    by_cases kind : field.kind = .group
    · rw [fieldPlans_group c kind]
      simp [kind, below]
    · rw [fieldPlans_other c kind]
      simp [kind]
  rw [plans, nestedPlans, List.mem_append, mem_fieldsPlans, mem_fieldsPlans]
  simp only [blocks, group]

theorem group_outlines (s : Site) (field : Field) :
    (s.group c field).Outlines c (Outline.ofGroup c (s.below .group) s.name field)
      ((s.group c field).plans c) where
  uid := rfl
  role := rfl
  name := rfl
  scope := rfl
  owner := rfl
  fields := rfl
  imports := rfl
  reserved := rfl
  contentTypeUid := rfl
  bases := nofun
  wrapper := nofun
  covers := List.Subset.refl _
  within _ member := .inl member

theorem ofDefinition_outlines (d : Definition) :
    (ofDefinition c d).Outlines c (Outline.ofEntry c d) ((ofDefinition c d).plans c) where
  uid := rfl
  role := rfl
  name := rfl
  scope := rfl
  owner := rfl
  fields := rfl
  imports := rfl
  reserved := rfl
  contentTypeUid := rfl
  bases := nofun
  wrapper := nofun
  covers := List.Subset.refl _
  within _ member := .inl member

theorem variant_outlines (s : Site) (field : Field) (v : Definition) :
    ∃ o nested, variantPlan c (s.below .blocks) (s.nestedName c .blocks field) v =
      .model o nested ∧ (s.variant c field v).Outlines c o nested := by
  cases origin : v.referenceTo with
  | none =>
    refine ⟨_, _, variantPlan_none c origin, ?_⟩
    simp only [variant, Content.ofVariant, origin]
    exact {
      uid := rfl
      role := rfl
      name := rfl
      scope := rfl
      owner := rfl
      fields := rfl
      imports := rfl
      reserved := rfl
      contentTypeUid := rfl
      bases := by simp [Outline.ofVariant]
      wrapper := by simp [Outline.ofVariant]
      covers := List.Subset.refl _
      within := fun _ member => .inl member }
  | some globalField =>
    refine ⟨_, _, variantPlan_some c origin, ?_⟩
    simp only [variant, Content.ofVariant, origin]
    -- an unregistered global field leaves the variant without fields, and so without imports
    cases c.registry.lookup globalField
    all_goals exact {
      uid := rfl
      role := rfl
      name := rfl
      scope := rfl
      owner := rfl
      fields := rfl
      imports := rfl
      reserved := rfl
      contentTypeUid := rfl
      bases := by simp [Outline.ofGlobalField, Outline.ofVariant]
      wrapper := by simp [Outline.ofGlobalField, Outline.ofVariant]
      covers := by simp [plans, nestedPlans, fieldsPlans, Content.ofGlobalField]
      within := fun _ member => .inr ⟨_, List.mem_singleton.mp member⟩ }

theorem placed_of_mem {s : Site} {plan : Plan} (member : plan ∈ s.plans c) : s.Placed c plan := by
  rcases mem_plans.mp member with ⟨field, declared, kind, among⟩ | ⟨field, declared, kind, rfl⟩
  · obtain ⟨i, here⟩ := List.mem_iff_getElem?.mp declared
    rcases List.mem_cons.mp among with rfl | among
    · exact .note _
    rcases List.mem_append.mp among with variant | unit
    · rcases mem_variantsPlans variant with ⟨diagnostics, rfl⟩ | ⟨v, inside, rfl⟩
      · exact .note diagnostics
      · obtain ⟨j, there⟩ := List.mem_iff_getElem?.mp inside
        obtain ⟨o, nested, planned, outlines⟩ := s.variant_outlines field v
        have same : variantPlan c (s.blockField c field).scope (s.blockField c field).wrapper v =
            .model o nested := planned
        rw [same]
        exact .model (.variant here kind there) outlines
    · obtain ⟨u, own, rfl⟩ := List.mem_map.mp unit
      exact .blockSet declared kind own
  · obtain ⟨i, here⟩ := List.mem_iff_getElem?.mp declared
    exact .model (.group here kind) (s.group_outlines field)

theorem blockSet_mem_plans {s : Site} {field : Field} {u : GeneratedUnit}
    (declared : field ∈ s.declared) (kind : field.kind = .blocks)
    (member : u ∈ s.blockUnits c field) : .unit field.uid .blockSet u ∈ s.plans c := by
  apply mem_plans.mpr
  refine .inl ⟨field, declared, kind, List.mem_cons_of_mem _ (List.mem_append_right _ ?_)⟩
  exact List.mem_map_of_mem member

end Site

def Rooted (c : Context) (roots : List Definition) (plans : List Plan) : Prop :=
  ∀ plan ∈ plans, plan ∈ supportPlans c ∨ ∃ d ∈ roots, plan = definitionPlan c d

-- Siblings of a model are run with it. A variant finds the wrapper it extends among them.
def Surrounded (c : Context) (roots : List Definition) (p : Position) (l : Ledger) : Prop :=
  ∀ (q : Position) (branch : Branch) (t : Site), p = .nested q branch → At c roots q t →
    t.Covered c l

-- What a plan that has been run is for, and what has been run along with it.
inductive Purpose (c : Context) (roots : List Definition) (plans : List Plan) (l : Ledger) :
    Plan → Prop
  | note (diagnostics : List Diagnostic) : Purpose c roots plans l (.note diagnostics)
  | support {u : GeneratedUnit} (asked : .unit u.name .support u ∈ plans)
      (known : u ∈ supportUnits c.registry (c.namespacePath c.rootScope) c.rootScope) :
      Purpose c roots plans l (.unit u.name .support u)
  | blockSet {p : Position} {s : Site} {field : Field} {u : GeneratedUnit} (site : At c roots p s)
      (declared : field ∈ s.declared) (kind : field.kind = .blocks)
      (member : u ∈ s.blockUnits c field) (covered : s.Covered c l) :
      Purpose c roots plans l (.unit field.uid .blockSet u)
  | model {p : Position} {s : Site} {o : Outline} {nested : List Plan} (site : At c roots p s)
      (outlines : s.Outlines c o nested) (inner : l.CoversNested c (.model o nested))
      (around : Surrounded c roots p l) : Purpose c roots plans l (.model o nested)

variable {roots : List Definition} {plans : List Plan} {l : Ledger} {target : Plan}

theorem surrounded_definition (i : Nat) : Surrounded c roots (.definition i) l := by
  intro q branch t impossible
  cases impossible

theorem Origin.purpose_below {inner : List Plan} (origin : Origin c l target inner) {p : Position}
    {s : Site} (site : At c roots p s) (covers : s.plans c ⊆ inner)
    (within : ∀ plan ∈ inner, plan ∈ s.plans c ∨ ∃ diagnostics, plan = .note diagnostics) :
    Purpose c roots plans l target := by
  induction origin generalizing p s with
  | here member nested covered =>
    rcases within target member with planned | ⟨diagnostics, rfl⟩
    · have siblings : s.Covered c l := fun other among => covered other (covers among)
      cases Site.placed_of_mem planned with
      | note diagnostics => exact .note diagnostics
      | blockSet declared kind own => exact .blockSet site declared kind own siblings
      | model nests outlines =>
        apply Purpose.model (.nested site nests) outlines nested
        rintro q branch t ⟨⟩ owner
        exact site.unique owner ▸ siblings
    · exact .note diagnostics
  | deeper member _ ih =>
    rcases within _ member with planned | ⟨diagnostics, impossible⟩
    · cases Site.placed_of_mem planned with
      | model nests outlines =>
        exact ih (.nested site nests) outlines.covers outlines.within
    · cases impossible

theorem Origin.purpose (rooted : Rooted c roots plans) (origin : Origin c l target plans) :
    Purpose c roots plans l target := by
  have known {o : Outline} {nested : List Plan} (member : Plan.model o nested ∈ plans) :
      ∃ i s, At c roots (.definition i) s ∧ s.Outlines c o nested := by
    rcases rooted _ member with support | ⟨d, among, planned⟩
    · simp [supportPlans] at support
    · obtain ⟨i, here⟩ := List.mem_iff_getElem?.mp among
      cases planned
      exact ⟨i, _, .definition here, Site.ofDefinition_outlines d⟩
  cases origin with
  | here member nested covered =>
    rcases rooted target member with support | ⟨d, _, planned⟩
    · obtain ⟨u, among, rfl⟩ := List.mem_map.mp support
      exact .support member among
    · subst planned
      obtain ⟨i, s, site, outlines⟩ := known member
      exact .model site outlines nested (surrounded_definition i)
  | deeper member inner =>
    obtain ⟨i, s, site, outlines⟩ := known member
    exact inner.purpose_below site outlines.covers outlines.within

end ContentModels.Emission
