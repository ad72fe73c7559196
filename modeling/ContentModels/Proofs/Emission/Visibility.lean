import ContentModels.Proofs.Emission.Namespaces
import ContentModels.Proofs.Emission.Order
import ContentModels.Proofs.Emission.Validity

set_option autoImplicit false

namespace ContentModels

open Naming

def Unambiguous (units : List GeneratedUnit) : Prop :=
  ∀ u ∈ units, ∀ m ∈ u.members, ∀ name ∈ m.type.names, ∀ v ∈ units, ∀ w ∈ units,
    u.Sees v → u.Sees w → v.name = name → w.name = name → v = w

instance (u v : GeneratedUnit) : Decidable (u.Sees v) := inferInstanceAs (Decidable (_ ∨ _))

theorem Resolver.resolve_names_nested {r : Resolver} {field : Field} {role : NestedRole}
    (kind : field.kind = role.kind) (owner : String) :
    (r.resolve field owner).type.names = [nestedTypeName r.prefixes role owner field] := by
  rw [resolve_type_names, element, kind]
  cases role <;> rfl

namespace Emission

variable {c : Context}

def Site.typeScope (c : Context) (s : Site) (field : Field) : Scope :=
  match field.kind with
  | .blocks => nestedScope s.home s.owner .blocks
  | .group => nestedScope s.home s.owner .group
  | _ => c.rootScope

theorem Site.mentioned_cases {s : Site} {field : Field} {name : String}
    (named : name ∈ (c.resolver.resolve field s.owner).type.names) :
    (∃ role : NestedRole, field.kind = role.kind ∧
      name = nestedTypeName c.options.prefixes role s.owner field ∧
      s.typeScope c field = nestedScope s.home s.owner role) ∨
    (∃ uid d, c.registry.lookup uid = some d ∧ name = definitionName d.title d.uid ∧
      s.typeScope c field = c.rootScope) := by
  by_cases nested : ∃ role : NestedRole, field.kind = role.kind
  · obtain ⟨role, kind⟩ := nested
    rw [Resolver.resolve_names_nested kind, List.mem_singleton] at named
    refine .inl ⟨role, kind, named, ?_⟩
    rw [typeScope, kind]
    cases role <;> rfl
  · rcases Resolver.resolve_names named with ⟨role, kind, _⟩ | ⟨uid, d, found, called⟩
    · exact absurd ⟨role, kind⟩ nested
    · refine .inr ⟨uid, d, found, called, ?_⟩
      have blocks : field.kind ≠ .blocks := fun kind => nested ⟨.blocks, kind⟩
      have group : field.kind ≠ .group := fun kind => nested ⟨.group, kind⟩
      unfold typeScope
      split <;> first | rfl | contradiction

inductive Finds (c : Context) (units : List GeneratedUnit) (u : GeneratedUnit) : Prop
  | model {p : Position} {s : Site} (site : At c c.registry.all p s) (models : s.Models c u)
      (found : ∀ field ∈ s.fields, ∀ name ∈ (c.resolver.resolve field s.owner).type.names,
        ∀ v ∈ units, u.Sees v → v.name = name → v.directoryPath = s.typeScope c field)
  | wrapper (kind : u.kind = .wrapper)
      (found : ∀ v ∈ units, u.Sees v → v.name = tagEnumName u.name →
        v.directoryPath = u.directoryPath)
  | untyped (names : ∀ m ∈ u.members, m.type.names = [])

theorem blockSet_members {scope : Scope} {wrapper : String} {tags : List VariantTag}
    {u : GeneratedUnit} (own : u ∈ blockSet c scope wrapper tags) :
    u.kind = .wrapper ∧ u.name = wrapper ∧
        u.members = [⟨blockTypeMember, blockTypeMember, .named (tagEnumName u.name), .plain⟩] ∨
      u.kind ≠ .wrapper ∧ u.members = [] := by
  simp only [blockSet, List.mem_cons, List.not_mem_nil, or_false] at own
  rcases own with rfl | rfl | rfl
  · exact .inr ⟨by simp [GeneratedUnit.kind, UnitBody.kind], rfl⟩
  · exact .inl ⟨rfl, rfl, rfl⟩
  · exact .inr ⟨by simp [GeneratedUnit.kind, UnitBody.kind], rfl⟩

theorem blockSet_name {scope : Scope} {wrapper : String} {tags : List VariantTag}
    {u : GeneratedUnit} (own : u ∈ blockSet c scope wrapper tags) :
    ∃ rest, u.name = wrapper ++ rest := by
  simp only [blockSet, List.mem_cons, List.not_mem_nil, or_false] at own
  rcases own with rfl | rfl | rfl
  · exact ⟨_, rfl⟩
  · exact ⟨"", String.append_empty.symm⟩
  · exact ⟨_, rfl⟩

theorem supportUnits_untyped {registry : Registry} {path directory : List String}
    {u : GeneratedUnit} (known : u ∈ supportUnits registry path directory) :
    ∀ m ∈ u.members, m.type.names = [] := by
  simp only [supportUnits, List.mem_cons, List.not_mem_nil, or_false] at known
  rcases known with rfl | rfl | rfl | rfl | rfl
  all_goals simp [linkMembers, TypeRef.names]

theorem Site.Models.exists_field {s : Site} {u : GeneratedUnit} (models : s.Models c u) {m : Member}
    (member : m ∈ u.members) :
    ∃ field ∈ s.fields, (c.resolver.resolve field s.owner).type = m.type := by
  have pairs := List.mem_map_of_mem (f := fun m : Member => (m.wire, m.type)) member
  rw [models.members] at pairs
  obtain ⟨field, among, same⟩ := List.mem_map.mp pairs
  exact ⟨field, among, (Prod.mk.inj same).2⟩

theorem Site.Models.exists_member {s : Site} {u : GeneratedUnit} (models : s.Models c u)
    {field : Field} (among : field ∈ s.fields) :
    ∃ m ∈ u.members, m.type = (c.resolver.resolve field s.owner).type := by
  have pairs := List.mem_map_of_mem
    (f := fun field : Field => (field.uid, (c.resolver.resolve field s.owner).type)) among
  rw [← models.members] at pairs
  obtain ⟨m, member, same⟩ := List.mem_map.mp pairs
  exact ⟨m, member, (Prod.mk.inj same).2⟩

section seen

theorem Proper.directory_eq {u : GeneratedUnit} (proper : Proper c u) {scope : Scope}
    (placed : u.namespacePath = c.namespacePath scope) : u.directoryPath = scope := by
  rw [proper.namespaced] at placed
  exact (List.cons.inj placed).2

theorem Proper.sees_iff {u v : GeneratedUnit} (proper : Proper c u) (other : Proper c v) :
    u.Sees v ↔ v.directoryPath <+: u.directoryPath ∨
      c.namespaceName v.directoryPath ∈ u.imports := by
  rw [GeneratedUnit.Sees, GeneratedUnit.namespaceName, other.namespaced, proper.namespaced]
  simp only [Context.namespacePath, List.cons_prefix_cons, true_and]
  rfl

variable (valid : c.options.Valid)

include valid

theorem finished_unique {v w : GeneratedUnit} (member : v ∈ (finished c).units.toList)
    (other : w ∈ (finished c).units.toList) (placed : v.directoryPath = w.directoryPath)
    (named : v.name = w.name) : v = w := by
  apply List.inj_on_of_nodup_map (finished_consistent c).distinct member other
  rw [(finished_proper valid member).qualifiedName, (finished_proper valid other).qualifiedName,
    placed, named]

theorem exists_typed (coherent : c.registry.Coherent) {p : Position} {s : Site}
    (site : At c c.registry.all p s) {o : Outline} {nested : List Plan}
    (outlines : s.Outlines c o nested) (inner : (finished c).CoversNested c (.model o nested))
    {field : Field} (member : field ∈ s.fields) {name : String}
    (named : name ∈ (c.resolver.resolve field s.owner).type.names) :
    ∃ v ∈ (finished c).units.toList, v.name = name ∧ v.directoryPath = s.typeScope c field ∧
      (o.unit c).Sees v := by
  have own := (site.plain valid).model_proper outlines
  rcases Site.mentioned_cases named with ⟨role, kind, called, lies⟩ | ⟨uid, d, found, called, lies⟩
  · rcases home_grown coherent site ⟨o, nested, outlines, inner⟩ with
      empty | ⟨q, t, home, below, placed, titled, declares⟩
    · simp [empty] at member
    · obtain ⟨v, kept, called', spaced⟩ :=
        exists_nested valid home below.covers (declares ▸ member) kind
      have proper := finished_proper valid kept
      have directory : v.directoryPath = nestedScope s.home s.owner role := by
        rw [proper.directory_eq spaced, Site.below, placed, titled]
      refine ⟨v, kept, by rw [called', called, Site.nestedName, titled], directory.trans lies.symm,
        (own.sees_iff proper).mpr (.inr ?_)⟩
      have imports : (o.unit c).imports = nestedNamespaces c s.home s.owner s.fields :=
        outlines.imports
      rw [imports, mem_nestedNamespaces, directory]
      exact ⟨role, ⟨field, member, kind⟩, rfl⟩
  · obtain ⟨registered, _⟩ := (coherent.lookup_eq_some uid d).mp found
    obtain ⟨v, kept, called', spaced⟩ := exists_definition valid registered
    have proper := finished_proper valid kept
    have directory := proper.directory_eq spaced
    refine ⟨v, kept, called'.trans called.symm, directory.trans lies.symm,
      (own.sees_iff proper).mpr (.inl ?_)⟩
    rw [directory]
    exact own.rooted

theorem unambiguous_of_finds
    (finds : ∀ u ∈ (finished c).units.toList, Finds c (finished c).units.toList u) :
    Unambiguous (finished c).units.toList := by
  intro u inside m member name named v kept w kept' seen seen' called called'
  suffices same : ∃ scope, v.directoryPath = scope ∧ w.directoryPath = scope by
    obtain ⟨scope, here, there⟩ := same
    exact finished_unique valid kept kept' (here.trans there.symm) (called.trans called'.symm)
  cases finds u inside with
  | model _ models found =>
    obtain ⟨field, among, typed⟩ := models.exists_field member
    rw [← typed] at named
    exact ⟨_, found field among name named v kept seen called,
      found field among name named w kept' seen' called'⟩
  | wrapper kind found =>
    have tag : name = tagEnumName u.name := by
      cases finished_made inside with
      | support known => simp [supportUnits_untyped known m member] at named
      | blockSet _ _ _ own =>
        rcases blockSet_members own with ⟨_, _, members⟩ | ⟨other, _⟩
        · rw [members, List.mem_singleton] at member
          simpa [member, TypeRef.names] using named
        · contradiction
      | model => cases kind
    exact ⟨_, found v kept seen (called.trans tag), found w kept' seen' (called'.trans tag)⟩
  | untyped names => simp [names m member] at named

theorem finds_of_unambiguous (coherent : c.registry.Coherent)
    (unambiguous : Unambiguous (finished c).units.toList) {u : GeneratedUnit}
    (inside : u ∈ (finished c).units.toList) : Finds c (finished c).units.toList u := by
  obtain ⟨target, emits, _, purpose⟩ := exists_purpose (generationPlans_rooted c) inside
  cases purpose with
  | note => cases emits
  | support _ known =>
    cases emits
    exact .untyped (supportUnits_untyped known)
  | @blockSet p s field _ site declared kind own covered =>
    cases emits
    rcases blockSet_members own with ⟨wraps, called, members⟩ | ⟨_, members⟩
    · obtain ⟨w, kept', called', spaced⟩ :=
        exists_block valid site covered declared kind List.mem_cons_self
      have beside : w.namespacePath = u.namespacePath := by rw [spaced, (mem_blockSet own).1]
      refine .wrapper wraps fun v kept seen named => ?_
      have member : ⟨blockTypeMember, blockTypeMember, .named (tagEnumName u.name), .plain⟩ ∈
          u.members := by
        rw [members]
        exact List.mem_singleton_self _
      have same := unambiguous u inside _ member _ (List.mem_singleton_self _) v kept w kept' seen
        (.inl (by rw [beside])) named (called' ▸ called ▸ rfl)
      have placed := (finished_proper valid kept').directory_eq spaced
      rw [same, placed]
      exact (mem_blockSet own).2.1.symm
    · exact .untyped (by simp [members])
  | @model p s o nested site outlines inner =>
    cases emits
    refine .model site outlines.models fun field among name named v kept seen called => ?_
    obtain ⟨w, kept', called', placed, seen'⟩ :=
      exists_typed valid coherent site outlines inner among named
    obtain ⟨m, member, typed⟩ := outlines.models.exists_member among
    rw [unambiguous _ inside m member name (typed ▸ named) v kept w kept' seen seen' called called',
      placed]

theorem finished_unambiguous_iff (coherent : c.registry.Coherent) :
    Unambiguous (finished c).units.toList ↔
      ∀ u ∈ (finished c).units.toList, Finds c (finished c).units.toList u :=
  ⟨fun unambiguous _ inside => finds_of_unambiguous valid coherent unambiguous inside,
    unambiguous_of_finds valid⟩

end seen

def Apart (s t : String) : Prop := ¬ s.toList <+: t.toList ∧ ¬ t.toList <+: s.toList

instance (s t : String) : Decidable (Apart s t) := inferInstanceAs (Decidable (_ ∧ _))

theorem Apart.symm {s t : String} (apart : Apart s t) : Apart t s := And.symm apart

theorem Apart.append_ne {s t : String} (apart : Apart s t) (x y : List Char) :
    s.toList ++ x ≠ t.toList ++ y := by
  intro same
  have front : s.toList <+: t.toList ++ y := same ▸ List.prefix_append _ _
  rcases List.prefix_or_prefix_of_prefix front (List.prefix_append _ y) with before | after
  · exact apart.1 before
  · exact apart.2 after

def rootNames (c : Context) : List String :=
  c.registry.all.map (fun d => definitionName d.title d.uid) ++ supportNames

-- Whether names can be told apart by what they start with: the two prefixes, a prefix and a name of
-- the root scope, and the names of different definitions.
structure Legible (c : Context) : Prop where
  prefixes : Apart c.options.prefixes.modularBlock c.options.prefixes.group
  marked : ∀ name ∈ rootNames c, ∀ role, Apart (c.options.prefixes.of role) name
  definitions : ∀ d ∈ c.registry.all, ∀ e ∈ c.registry.all,
    definitionName d.title d.uid = definitionName e.title e.uid ∨
      Apart (definitionName d.title d.uid) (definitionName e.title e.uid)

inductive Spelled (c : Context) (root : String) : List NestedRole → Scope → String → Prop
  | root : Spelled c root [] c.rootScope root
  | nested {roles : List NestedRole} {scope : Scope} {owner : String}
      (above : Spelled c root roles scope owner) (role : NestedRole) (rest : String) :
      Spelled c root (role :: roles) (nestedScope scope owner role)
        (c.options.prefixes.of role ++ owner ++ rest)

def spelling (c : Context) (roles : List NestedRole) : List Char :=
  roles.flatMap fun role => (c.options.prefixes.of role).toList

namespace Spelled

variable {root name : String} {roles : List NestedRole} {scope : Scope}

theorem toList_eq (spelled : Spelled c root roles scope name) :
    ∃ rest, name.toList = spelling c roles ++ (root.toList ++ rest) := by
  induction spelled with
  | root => exact ⟨[], by simp [spelling]⟩
  | nested above role rest ih =>
    obtain ⟨inner, same⟩ := ih
    exact ⟨inner ++ rest.toList, by simp [same, spelling]⟩

theorem length_eq (spelled : Spelled c root roles scope name) : scope.length = roles.length + 1 := by
  induction spelled with
  | root => rfl
  | nested above role rest ih => simp [nestedScope, ih]

theorem belongs (spelled : Spelled c root roles scope name) : Belongs c root scope name := by
  induction spelled with
  | root => exact .inl ⟨rfl, rfl⟩
  | nested above role rest ih => exact ih.below role

theorem of_nestedScope {role found : NestedRole} {owner : String}
    (spelled : Spelled c root (role :: roles) (nestedScope scope owner found) name) :
    found = role ∧ Spelled c root roles scope owner := by
  generalize placed : nestedScope scope owner found = inner at spelled
  cases spelled with
  | nested above =>
    obtain ⟨rfl, rfl, rfl⟩ := nestedScope_injective placed
    exact ⟨rfl, above⟩

theorem of_nil (spelled : Spelled c root [] scope name) : scope = c.rootScope := by
  cases spelled
  rfl

theorem of_singleton {role : NestedRole} (spelled : Spelled c root [role] scope name) :
    scope = nestedScope c.rootScope root role := by
  cases spelled with
  | nested above =>
    cases above
    rfl

end Spelled

theorem definitionName_known {d : Definition} (registered : d ∈ c.registry.all) :
    definitionName d.title d.uid ∈ rootNames c :=
  List.mem_append_left _ (List.mem_map_of_mem registered)

section spelled

variable (valid : c.options.Valid)

include valid

theorem Site.Plain.nestedName_spelled {s : Site} (plain : s.Plain c) {root : String}
    {roles : List NestedRole} (spelled : Spelled c root roles s.directory s.name)
    (role : NestedRole) (field : Field) (rest : String) :
    Spelled c root (role :: roles) (s.below role) (s.nestedName c role field ++ rest) := by
  have written := (nestedTypeName_eq valid.prefixes role plain.name field).2
  rw [Site.nestedName, written, String.append_assoc]
  exact spelled.nested role _

theorem At.spelled {roots : List Definition} {p : Position} {s : Site} (site : At c roots p s) :
    ∃ d ∈ roots, ∃ roles,
      Spelled c (definitionName d.title d.uid) roles s.directory s.name := by
  induction site with
  | definition root => exact ⟨_, List.mem_of_getElem? root, [], .root⟩
  | @nested p s t branch owner nests ih =>
    obtain ⟨d, among, roles, spelled⟩ := ih
    have plain := owner.plain valid
    cases nests with
    | @group i field =>
      have named := plain.nestedName_spelled valid spelled .group field ""
      rw [String.append_empty] at named
      exact ⟨d, among, _, named⟩
    | variant => exact ⟨d, among, _, plain.nestedName_spelled valid spelled .blocks _ _⟩

theorem finished_spelled {u : GeneratedUnit} (member : u ∈ (finished c).units.toList) :
    ∃ root ∈ rootNames c, ∃ roles, Spelled c root roles u.directoryPath u.name := by
  cases finished_made member with
  | support known =>
    have named := List.mem_map_of_mem (f := GeneratedUnit.name) known
    rw [supportUnits_map_name] at named
    refine ⟨u.name, List.mem_append_right _ named, [], ?_⟩
    rw [(mem_supportUnits known).2.1]
    exact .root
  | @blockSet p s field _ site declared kind own =>
    obtain ⟨d, among, roles, spelled⟩ := site.spelled valid
    refine ⟨_, definitionName_known among, .blocks :: roles, ?_⟩
    have placed : u.directoryPath = s.below .blocks := (mem_blockSet own).2.1
    obtain ⟨rest, named⟩ : ∃ rest, u.name = s.nestedName c .blocks field ++ rest :=
      blockSet_name own
    rw [placed, named]
    exact (site.plain valid).nestedName_spelled valid spelled .blocks field rest
  | model site outlines =>
    obtain ⟨d, among, roles, spelled⟩ := site.spelled valid
    refine ⟨_, definitionName_known among, roles, ?_⟩
    rw [← outlines.scope, ← outlines.name] at spelled
    exact spelled

end spelled

namespace Legible

variable (legible : Legible c)

include legible

theorem prefixes_apart {role other : NestedRole} (different : role ≠ other) :
    Apart (c.options.prefixes.of role) (c.options.prefixes.of other) := by
  cases role <;> cases other <;> first | contradiction | skip
  · exact legible.prefixes
  · exact legible.prefixes.symm

theorem spelling_unique {root other : String} (known : root ∈ rootNames c)
    (otherKnown : other ∈ rootNames c) {roles otherRoles : List NestedRole} {x y : List Char}
    (same : spelling c roles ++ (root.toList ++ x) = spelling c otherRoles ++ (other.toList ++ y)) :
    roles = otherRoles ∧ root.toList ++ x = other.toList ++ y := by
  induction roles generalizing otherRoles with
  | nil =>
    cases otherRoles with
    | nil => exact ⟨rfl, same⟩
    | cons role _ =>
      simp only [spelling, List.flatMap_nil, List.flatMap_cons, List.nil_append,
        List.append_assoc] at same
      exact absurd same.symm ((legible.marked root known role).append_ne _ _)
  | cons role roles ih =>
    cases otherRoles with
    | nil =>
      simp only [spelling, List.flatMap_nil, List.flatMap_cons, List.nil_append,
        List.append_assoc] at same
      exact absurd same ((legible.marked other otherKnown role).append_ne _ _)
    | cons otherRole otherRoles =>
      simp only [spelling, List.flatMap_cons, List.append_assoc] at same
      by_cases equal : role = otherRole
      · subst equal
        obtain ⟨rfl, rest⟩ := ih (List.append_cancel_left same)
        exact ⟨rfl, rest⟩
      · exact absurd same ((legible.prefixes_apart equal).append_ne _ _)

theorem spelled_unique {root other name : String} (known : root ∈ rootNames c)
    (otherKnown : other ∈ rootNames c) {roles otherRoles : List NestedRole} {scope otherScope : Scope}
    (first : Spelled c root roles scope name) (second : Spelled c other otherRoles otherScope name) :
    roles = otherRoles ∧ ∃ x y, root.toList ++ x = other.toList ++ y := by
  obtain ⟨x, here⟩ := first.toList_eq
  obtain ⟨y, there⟩ := second.toList_eq
  obtain ⟨same, rest⟩ := legible.spelling_unique known otherKnown (here.symm.trans there)
  exact ⟨same, x, y, rest⟩

end Legible

section legible

variable (valid : c.options.Valid)

include valid

theorem Site.Outlines.seen_cases {p : Position} {s : Site} (site : At c c.registry.all p s)
    {o : Outline} {nested : List Plan} (outlines : s.Outlines c o nested) {v : GeneratedUnit}
    (proper : Proper c v) (seen : (o.unit c).Sees v) :
    v.directoryPath <+: s.directory ∨ ∃ role, v.directoryPath = nestedScope s.home s.owner role := by
  have own := (site.plain valid).model_proper outlines
  have placed : (o.unit c).directoryPath = s.directory := outlines.scope
  have imports : (o.unit c).imports = nestedNamespaces c s.home s.owner s.fields := outlines.imports
  rcases (own.sees_iff proper).mp seen with around | imported
  · exact .inl (placed ▸ around)
  · rw [imports, mem_nestedNamespaces] at imported
    obtain ⟨role, _, same⟩ := imported
    obtain ⟨owner, home⟩ := site.home_plain valid
    refine .inr ⟨role, c.namespaceName_injective proper.nested (by simp [nestedScope]) ?_ ?_ same⟩
    · exact fun segment member => proper.plain (by decide) segment (List.mem_append_left _ member)
    · intro segment member
      apply notMem_of_isIdentifier _ (by decide)
      rcases List.mem_append.mp member with member | member
      · exact home segment member
      · rw [List.mem_singleton.mp member]
        exact isIdentifier_nestedDirectory owner role

variable (legible : Legible c) (coherent : c.registry.Coherent)

include legible

theorem Site.Outlines.own_found {p : Position} {s : Site} (site : At c c.registry.all p s)
    {o : Outline} {nested : List Plan} (outlines : s.Outlines c o nested) {role : NestedRole}
    {field : Field} {v : GeneratedUnit} (kept : v ∈ (finished c).units.toList) (seen : (o.unit c).Sees v)
    (called : v.name = s.nestedName c role field) :
    v.directoryPath = nestedScope s.home s.owner role := by
  obtain ⟨d, registered, roles, spelled⟩ := site.spelled valid
  obtain ⟨root, known, otherRoles, other⟩ := finished_spelled valid kept
  have inner := (site.plain valid).nestedName_spelled valid spelled role field ""
  rw [String.append_empty, ← called] at inner
  obtain ⟨rfl, _⟩ := legible.spelled_unique (definitionName_known registered) known inner other
  rcases outlines.seen_cases valid site (finished_proper valid kept) seen with
    around | ⟨found, placed⟩
  · have lengths := around.length_le
    rw [other.length_eq, spelled.length_eq, List.length_cons] at lengths
    omega
  · rw [placed] at other ⊢
    rw [other.of_nestedScope.1]

theorem Site.Outlines.global_found {p : Position} {s : Site} (site : At c c.registry.all p s)
    {o : Outline} {nested : List Plan} (outlines : s.Outlines c o nested) {g : Definition}
    (registered : g ∈ c.registry.all) (home : s.home = c.rootScope)
    (owner : s.owner = definitionName g.title g.uid) {role : NestedRole} {field : Field}
    {v : GeneratedUnit} (kept : v ∈ (finished c).units.toList) (seen : (o.unit c).Sees v)
    (called : v.name = (Site.ofDefinition c g).nestedName c role field) :
    v.directoryPath = nestedScope s.home s.owner role := by
  obtain ⟨d, among, roles, spelled⟩ := site.spelled valid
  obtain ⟨root, known, otherRoles, other⟩ := finished_spelled valid kept
  have inner := (Site.ofDefinition_plain valid g).nestedName_spelled valid .root role field ""
  rw [String.append_empty, ← called] at inner
  obtain ⟨rfl, x, y, same⟩ :=
    legible.spelled_unique (definitionName_known registered) known inner other
  rcases outlines.seen_cases valid site (finished_proper valid kept) seen with
    around | ⟨found, placed⟩
  · -- what is placed around the site is nested in the definition that the site is nested in
    have placed := other.of_singleton
    obtain rfl : root = definitionName d.title d.uid :=
      Belongs.unique (.inr ⟨role, placed ▸ around⟩) spelled.belongs
    rcases legible.definitions g registered d among with equal | apart
    · rw [placed, home, owner, equal]
    · exact absurd same (apart.append_ne x y)
  · rw [placed] at other ⊢
    rw [other.of_nestedScope.1]

include coherent

theorem Legible.finds {u : GeneratedUnit} (inside : u ∈ (finished c).units.toList) :
    Finds c (finished c).units.toList u := by
  cases finished_made inside with
  | support known => exact .untyped (supportUnits_untyped known)
  | @blockSet p s field _ site declared kind own =>
    rcases blockSet_members own with ⟨wraps, called, _⟩ | ⟨_, members⟩
    · refine .wrapper wraps fun v kept seen named => ?_
      obtain ⟨d, registered, roles, spelled⟩ := site.spelled valid
      obtain ⟨root, known, otherRoles, other⟩ := finished_spelled valid kept
      have inner := (site.plain valid).nestedName_spelled valid spelled .blocks field "Enum"
      obtain ⟨_, placed, imports⟩ := mem_blockSet own
      have proper := (site.plain valid).blockUnits_proper valid own
      have enum : v.name = s.nestedName c .blocks field ++ "Enum" := by
        rw [named, called]
        rfl
      rw [← enum] at inner
      obtain ⟨rfl, _⟩ :=
        legible.spelled_unique (definitionName_known registered) known inner other
      rcases (proper.sees_iff (finished_proper valid kept)).mp seen with around | imported
      · apply around.eq_of_length
        rw [other.length_eq, placed]
        exact inner.length_eq.symm
      · simp [imports] at imported
    · exact .untyped (by simp [members])
  | @model p s o nested site outlines =>
    refine .model site outlines.models fun field among name named v kept seen called => ?_
    rcases Site.mentioned_cases named with ⟨role, kind, same, lies⟩ | ⟨uid, e, found, same, lies⟩
    · rw [lies]
      rcases site.content_cases with own | none | ⟨_, g, found, global⟩
      · have owner : s.owner = s.name := congrArg Content.owner own
        rw [owner] at same
        exact outlines.own_found valid legible site kept seen (called.trans same)
      · have empty : s.fields = [] := congrArg Content.fields none
        simp [empty] at among
      · have owner : s.owner = definitionName g.title g.uid := congrArg Content.owner global
        rw [owner] at same
        obtain ⟨registered, _⟩ := (coherent.lookup_eq_some _ g).mp found
        exact outlines.global_found valid legible site registered (congrArg Content.home global)
          owner kept seen (called.trans same)
    · rw [lies]
      obtain ⟨registered, _⟩ := (coherent.lookup_eq_some uid e).mp found
      obtain ⟨root, known, otherRoles, other⟩ := finished_spelled valid kept
      rw [called, same] at other
      obtain ⟨rfl, _⟩ :=
        legible.spelled_unique (definitionName_known registered) known .root other
      exact other.of_nil

end legible

theorem generate_unambiguous_iff {config : Config} (accepted : config.validate = .ok ())
    {registry : Registry} (built : registry.Built) (policy : ReferencePolicy) :
    ∃ output, generate registry (config.emissionOptions policy) = .ok output ∧
      (Unambiguous output.units ↔
        ∀ u ∈ output.units, Finds ⟨registry, config.emissionOptions policy⟩ output.units u) ∧
      (Legible ⟨registry, config.emissionOptions policy⟩ → Unambiguous output.units) := by
  have valid := Config.emissionOptions_valid accepted policy
  have found := finished_unambiguous_iff (c := ⟨registry, config.emissionOptions policy⟩) valid
    built.coherent
  refine ⟨_, generate_eq registry (config.emissionOptions policy), ?_⟩
  rw [Ledger.output_units]
  refine ⟨found, fun legible => found.mpr fun u inside => ?_⟩
  exact legible.finds valid built.coherent inside

theorem magazine_legible : Legible ⟨magazine, Config.emissionOptions {} .asDeclared⟩ where
  prefixes := by decide
  marked name known role := by
    revert name
    cases role <;> decide +kernel
  definitions := by decide +kernel

theorem magazine_unambiguous : Config.validate {} = .ok () ∧ magazine.Built ∧
    ∃ output, generate magazine (Config.emissionOptions {} .asDeclared) = .ok output ∧
      Unambiguous output.units ∧
      ∀ u ∈ output.units,
        Finds ⟨magazine, Config.emissionOptions {} .asDeclared⟩ output.units u := by
  have built : magazine.Built := .extend .empty _
  obtain ⟨output, generated, exact, sufficient⟩ :=
    generate_unambiguous_iff Config.default_validate built .asDeclared
  have single := sufficient magazine_legible
  exact ⟨Config.default_validate, built, output, generated, single, exact.mp single⟩

-- The blocks of the page and those of the global field have one name, and the variant with the
-- fields of the global field sees both.
def brochure : Registry := .ofList
  [.new "page" "Page"
    [((Field.new "body" .blocks).named "Body").withBlocks
        [(Definition.new "parts" "Parts" []).referencing "page_sections"],
      (Field.new "sections_top" .blocks).named "Sections Top"],
    (Definition.new "page_sections" "Page Sections"
      [(Field.new "top" .blocks).named "Top"]).withOrigin .globalField]

theorem brochure_ambiguous : Config.validate {} = .ok () ∧ brochure.Built ∧
    ∃ output, generate brochure (Config.emissionOptions {} .asDeclared) = .ok output ∧
      output.diagnostics = [] ∧ ¬ Unambiguous output.units := by
  let name := "MBPageSectionsTop"
  have shown : (generate brochure (Config.emissionOptions {} .asDeclared)).toOption.map (fun output =>
      (output.diagnostics, output.units.any fun u => u.name = "MBPageBodyParts" ∧
        (u.members.any fun m => m.type = .named name) ∧
        (output.units.any fun v => v.name = name ∧
          v.directoryPath = ["Models", "PageBlocks"] ∧ u.Sees v) ∧
        output.units.any fun w => w.name = name ∧
          w.directoryPath = ["Models", "PageSectionsBlocks"] ∧ u.Sees w)) = some ([], true) := by
    decide +kernel
  have generated := generate_eq brochure (Config.emissionOptions {} .asDeclared)
  rw [generated] at shown
  obtain ⟨silent, u, inside, _, ⟨m, member, typed⟩, ⟨v, kept, called, placed, seen⟩,
      w, kept', called', placed', seen'⟩ : _ ∧ ∃ u ∈ _, _ ∧ (∃ m ∈ _, _) ∧ (∃ v ∈ _, _ ∧ _ ∧ _) ∧
        ∃ w ∈ _, _ ∧ _ ∧ _ := by
    simpa [Except.toOption] using shown
  refine ⟨Config.default_validate, .extend .empty _, _, generated, silent, fun single => ?_⟩
  have named : name ∈ m.type.names := by
    rw [typed]
    exact List.mem_singleton_self _
  have same := single u inside m member name named v kept w kept' seen seen' called called'
  rw [same, placed'] at placed
  exact absurd placed (by decide)

end Emission

end ContentModels
