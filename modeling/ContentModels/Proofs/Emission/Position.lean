import ContentModels.Proofs.Emission.Traversal

set_option autoImplicit false

namespace ContentModels.Emission

open Naming

-- The fields of a model, and the type they were declared in.
structure Content where
  fields : List Field
  owner : String
  home : Scope
  declared : List Field

structure Site extends Content where
  uid : String
  role : Role
  name : String
  directory : Scope
  wrapper : Option String

-- A field is told by its place among those of its owner, a variant by its place in the field.
inductive Branch where
  | group (field : Nat)
  | variant (field variant : Nat)
  deriving Repr, DecidableEq

inductive Position where
  | definition (i : Nat)
  | nested (owner : Position) (branch : Branch)
  deriving Repr, DecidableEq

namespace Content

def own (fields : List Field) (owner : String) (home : Scope) : Content where
  fields := fields
  owner := owner
  home := home
  declared := fields

def ofGlobalField (c : Context) (found : Option Definition) (name : String) (directory : Scope) :
    Content :=
  match found with
  | none => ⟨[], name, directory, []⟩
  -- what is nested in a global field is declared by the definition of its own
  | some g => ⟨g.fields, definitionName g.title g.uid, c.rootScope, []⟩

def ofVariant (c : Context) (v : Definition) (name : String) (directory : Scope) : Content :=
  match v.referenceTo with
  | none => own v.fields name directory
  | some globalField => ofGlobalField c (c.registry.lookup globalField) name directory

theorem ofVariant_cases (c : Context) (v : Definition) (name : String) (directory : Scope) :
    ofVariant c v name directory = own v.fields name directory ∨
      ofVariant c v name directory = ⟨[], name, directory, []⟩ ∨
      ∃ uid g, c.registry.lookup uid = some g ∧ ofVariant c v name directory =
        ⟨g.fields, definitionName g.title g.uid, c.rootScope, []⟩ := by
  unfold ofVariant
  cases v.referenceTo with
  | none => exact .inl rfl
  | some globalField =>
    dsimp only
    cases found : c.registry.lookup globalField with
    | none => exact .inr (.inl rfl)
    | some g => exact .inr (.inr ⟨globalField, g, found, rfl⟩)

end Content

namespace Site

variable (c : Context)

def ofDefinition (d : Definition) : Site where
  toContent := .own d.fields (definitionName d.title d.uid) c.rootScope
  uid := d.uid
  role := .entry
  name := definitionName d.title d.uid
  directory := c.rootScope
  wrapper := none

def below (s : Site) (role : NestedRole) : Scope := nestedScope s.directory s.name role

def nestedName (s : Site) (role : NestedRole) (field : Field) : String :=
  nestedTypeName c.options.prefixes role s.name field

def group (s : Site) (field : Field) : Site where
  toContent := .own field.nested (s.nestedName c .group field) (s.below .group)
  uid := field.uid
  role := .group
  name := s.nestedName c .group field
  directory := s.below .group
  wrapper := none

def variantName (s : Site) (field : Field) (v : Definition) : String :=
  variantTypeName (s.nestedName c .blocks field) v.title v.uid

def variant (s : Site) (field : Field) (v : Definition) : Site where
  toContent := .ofVariant c v (s.variantName c field v) (s.below .blocks)
  uid := v.uid
  role := .blockVariant
  name := s.variantName c field v
  directory := s.below .blocks
  wrapper := some (s.nestedName c .blocks field)

inductive Nests (s : Site) : Branch → Site → Prop
  | group {i : Nat} {field : Field} (declared : s.declared[i]? = some field)
      (kind : field.kind = .group) : Nests s (.group i) (s.group c field)
  | variant {i j : Nat} {field : Field} {v : Definition} (declared : s.declared[i]? = some field)
      (kind : field.kind = .blocks) (among : field.variants[j]? = some v) :
      Nests s (.variant i j) (s.variant c field v)

def key (s : Site) : Key := c.key s.uid s.role s.name s.directory

end Site

-- The sites at the positions below given definitions.
inductive At (c : Context) (roots : List Definition) : Position → Site → Prop
  | definition {i : Nat} {d : Definition} (root : roots[i]? = some d) :
      At c roots (.definition i) (.ofDefinition c d)
  | nested {p : Position} {s t : Site} {branch : Branch} (owner : At c roots p s)
      (nests : s.Nests c branch t) : At c roots (.nested p branch) t

namespace Site

variable {c : Context}

theorem Nests.unique {s t other : Site} {branch : Branch} (first : s.Nests c branch t)
    (second : s.Nests c branch other) : t = other := by
  cases first with
  | group declared =>
    cases second with
    | group again =>
      rw [Option.some.inj (declared.symm.trans again)]
  | variant declared _ among =>
    cases second with
    | variant again _ amongAgain =>
      obtain rfl := Option.some.inj (declared.symm.trans again)
      rw [Option.some.inj (among.symm.trans amongAgain)]

end Site

theorem At.unique {c : Context} {roots : List Definition} {p : Position} {s t : Site}
    (first : At c roots p s) (second : At c roots p t) : s = t := by
  induction first generalizing t with
  | definition root =>
    cases second with
    | definition again => rw [Option.some.inj (root.symm.trans again)]
  | nested _ nests ih =>
    cases second with
    | nested owner again =>
      obtain rfl := ih owner
      exact nests.unique again

theorem At.content_cases {c : Context} {roots : List Definition} {p : Position} {s : Site}
    (site : At c roots p s) :
    s.toContent = .own s.fields s.name s.directory ∨
      s.toContent = ⟨[], s.name, s.directory, []⟩ ∨
      ∃ uid g, c.registry.lookup uid = some g ∧
        s.toContent = ⟨g.fields, definitionName g.title g.uid, c.rootScope, []⟩ := by
  cases site with
  | definition => exact .inl rfl
  | nested _ nests =>
    cases nests with
    | group => exact .inl rfl
    | variant =>
      refine (Content.ofVariant_cases c _ _ _).imp_left fun own => ?_
      exact own.trans (congrArg (Content.own · _ _) (congrArg Content.fields own).symm)

theorem At.declared_cases {c : Context} {roots : List Definition} {p : Position} {s : Site}
    (site : At c roots p s) : s.declared = s.fields ∨ s.declared = [] := by
  rcases site.content_cases with own | none | ⟨_, _, _, global⟩
  · exact .inl (congrArg Content.declared own)
  · exact .inr (congrArg Content.declared none)
  · exact .inr (congrArg Content.declared global)

theorem At.role_ne {c : Context} {roots : List Definition} {p : Position} {s : Site}
    (site : At c roots p s) : s.role ≠ .support ∧ s.role ≠ .blockSet := by
  cases site with
  | definition => exact ⟨nofun, nofun⟩
  | nested _ nests =>
    cases nests with
    | group => exact ⟨nofun, nofun⟩
    | variant => exact ⟨nofun, nofun⟩

theorem nestedScope_injective {scope other : Scope} {owner otherOwner : String}
    {role otherRole : NestedRole}
    (same : nestedScope scope owner role = nestedScope other otherOwner otherRole) :
    scope = other ∧ owner = otherOwner ∧ role = otherRole := by
  obtain ⟨scopes, last⟩ := List.append_inj' same rfl
  exact ⟨scopes, nestedDirectory_injective (List.singleton_inj.mp last)⟩

structure Site.Plain (c : Context) (s : Site) : Prop where
  name : Config.isIdentifier s.name = true
  directory : ∀ segment ∈ s.directory, Config.isIdentifier segment = true
  rooted : c.rootScope <+: s.directory

namespace Site.Plain

variable {c : Context} {s : Site}

theorem below (plain : s.Plain c) (role : NestedRole) :
    (∀ segment ∈ s.below role, Config.isIdentifier segment = true) ∧
      c.rootScope <+: s.below role := by
  refine ⟨?_, plain.rooted.trans (List.prefix_append _ _)⟩
  intro segment member
  rcases List.mem_append.mp member with member | member
  · exact plain.directory segment member
  · rw [List.mem_singleton.mp member]
    exact isIdentifier_nestedDirectory plain.name role

theorem nestedName (plain : s.Plain c) (valid : c.options.Valid) (role : NestedRole)
    (field : Field) : Config.isIdentifier (s.nestedName c role field) = true :=
  isIdentifier_nestedTypeName valid.prefixes role plain.name field

theorem nests (plain : s.Plain c) (valid : c.options.Valid) {branch : Branch} {t : Site}
    (nests : s.Nests c branch t) : t.Plain c := by
  cases nests with
  | group => exact ⟨plain.nestedName valid .group _, (plain.below .group).1, (plain.below .group).2⟩
  | @variant i j field v =>
    have wrapper := plain.nestedName valid .blocks field
    exact ⟨isIdentifier_variantTypeName wrapper v.title v.uid, (plain.below .blocks).1,
      (plain.below .blocks).2⟩

end Site.Plain

theorem Site.ofDefinition_plain {c : Context} (valid : c.options.Valid) (d : Definition) :
    (Site.ofDefinition c d).Plain c where
  name := isIdentifier_definitionName d.title d.uid
  directory := by simpa [Site.ofDefinition, Context.rootScope] using valid.directory
  rooted := List.prefix_rfl

theorem At.plain {c : Context} {roots : List Definition} (valid : c.options.Valid) {p : Position}
    {s : Site} (site : At c roots p s) : s.Plain c := by
  induction site with
  | definition => exact Site.ofDefinition_plain valid _
  | nested _ nests ih => exact ih.nests valid nests

theorem Site.Plain.qualified_injective {c : Context} {s t : Site} (first : s.Plain c)
    (second : t.Plain c) (same : c.qualified s.directory s.name = c.qualified t.directory t.name) :
    s.directory = t.directory ∧ s.name = t.name := by
  have plain {u : Site} (names : u.Plain c) : ∀ segment ∈ u.directory ++ [u.name],
      '.' ∉ segment.toList := by
    intro segment member
    apply notMem_of_isIdentifier _ (by decide)
    rcases List.mem_append.mp member with member | member
    · exact names.directory segment member
    · exact List.mem_singleton.mp member ▸ names.name
  exact c.qualified_injective (plain first) (plain second) same

end ContentModels.Emission
