import ContentModels.Proofs.Emission.Provenance
import ContentModels.Proofs.Naming.MemberNames

set_option autoImplicit false

namespace ContentModels.Emission

open Naming

def Quiet (diagnostics : List Diagnostic) : Prop :=
  ∀ d ∈ diagnostics, d.kind ≠ .nameCollision ∧ d.kind ≠ .duplicateVariant

theorem Outline.declare_distinct {r : Resolver} {owner unitName : String} {names : MemberNames}
    {fields : List Field}
    (quiet : ∀ d ∈ (declare r owner unitName names fields).2, d.kind ≠ .nameCollision) :
    (fields.map fun field => propertyName field.uid).Nodup ∧
      ∀ field ∈ fields, names.contains (propertyName field.uid) = false := by
  induction fields generalizing names with
  | nil => simp
  | cons field rest ih =>
    simp only [declare, List.mem_append] at quiet
    have kept : (names.claim (propertyName field.uid) (accessor field).companions).1 =
        propertyName field.uid := by
      by_contra other
      have reported : ∃ d ∈ renamed field.uid (propertyName field.uid)
          (names.claim (propertyName field.uid) (accessor field).companions).1
          (unitName ++ "." ++ field.uid), d.kind = .nameCollision := by
        rw [renamed, if_neg other]
        exact ⟨_, List.mem_singleton_self _, rfl⟩
      obtain ⟨d, member, kind⟩ := reported
      exact quiet d (.inl (.inr member)) kind
    obtain ⟨distinct, unused⟩ := ih fun d member => quiet d (.inr member)
    have used := names.claim_contains (propertyName field.uid) (accessor field).companions
    rw [kept] at used
    constructor
    · rw [List.map_cons, List.nodup_cons]
      refine ⟨?_, distinct⟩
      intro again
      obtain ⟨other, member, same⟩ := List.mem_map.mp again
      have free := unused other member
      rw [same, used] at free
      exact Bool.noConfusion free
    · intro other member
      rcases List.mem_cons.mp member with rfl | member
      · exact MemberNames.contains_eq_false_of_claim kept
      · by_contra known
        have still := MemberNames.claim_keeps (Bool.not_eq_false _ ▸ known)
          (propertyName field.uid) (accessor field).companions
        rw [unused other member] at still
        exact Bool.noConfusion still

theorem variantsPlans_distinct {c : Context} {b : BlockField} {seen : List String}
    {names : MemberNames} {variants : List Definition}
    (quiet : ∀ uid, Plan.note [repeated b.subject uid] ∉ variantsPlans c b seen names variants) :
    (variants.map (·.uid)).Nodup ∧ ∀ v ∈ variants, v.uid ∉ seen ∧
      variantPlan c b.scope b.wrapper v ∈ variantsPlans c b seen names variants := by
  induction variants generalizing seen names with
  | nil => simp
  | cons v rest ih =>
    have fresh : ¬ seen.contains v.uid = true := by
      intro known
      rw [variantsPlans, if_pos known] at quiet
      exact quiet v.uid List.mem_cons_self
    rw [variantsPlans, if_neg fresh] at quiet ⊢
    obtain ⟨distinct, later⟩ := ih fun uid member =>
      quiet uid (List.mem_cons_of_mem _ (List.mem_cons_of_mem _ member))
    constructor
    · rw [List.map_cons, List.nodup_cons]
      refine ⟨?_, distinct⟩
      intro again
      obtain ⟨other, member, same⟩ := List.mem_map.mp again
      exact (later other member).1 (same ▸ List.mem_cons_self)
    · intro other member
      rcases List.mem_cons.mp member with rfl | member
      · exact ⟨by simpa using fresh, List.mem_cons_self⟩
      · obtain ⟨unmet, planned⟩ := later other member
        exact ⟨fun met => unmet (List.mem_cons_of_mem _ met),
          List.mem_cons_of_mem _ (List.mem_cons_of_mem _ planned)⟩

section quiet

variable {c : Context} {roots : List Definition} {l : Ledger} (quiet : Quiet l.diagnostics.toList)

include quiet

theorem Quiet.not_colliding : ¬ l.Colliding := by
  rintro ⟨d, member, kind⟩
  exact (quiet d member).1 kind

namespace Site

theorem Grown.fields_distinct {p : Position} {s : Site} (site : At c roots p s)
    (grown : s.Grown c l) {i j : Nat} {field other : Field} (first : s.declared[i]? = some field)
    (second : s.declared[j]? = some other) (same : field.uid = other.uid) : i = j := by
  obtain ⟨o, nested, outlines, covered⟩ := grown
  -- of two fields with one uid the second would have been renamed, and that reported
  have distinct := (Outline.declare_distinct fun d member =>
    (quiet d (covered.2 member)).1).1
  rcases site.declared_cases with fields | empty
  · rw [outlines.fields, ← fields] at distinct
    have bound : i < s.declared.length := (List.getElem?_eq_some_iff.mp first).1
    apply (List.getElem?_inj (by simpa using bound) distinct).mp
    simp [first, second, same]
  · simp [empty] at first

theorem Grown.variants_distinct {s : Site} (grown : s.Grown c l) {field : Field}
    (declared : field ∈ s.declared) (kind : field.kind = .blocks) :
    (field.variants.map (·.uid)).Nodup ∧ ∀ v ∈ field.variants,
      variantPlan c (s.below .blocks) (s.nestedName c .blocks field) v ∈ s.plans c := by
  have among {plan : Plan} (member : plan ∈ variantsPlans c (s.blockField c field) []
      (.reserving []) field.variants) : plan ∈ s.plans c :=
    mem_plans.mpr (.inl ⟨field, declared, kind,
      List.mem_cons_of_mem _ (List.mem_append_left _ member)⟩)
  have unrepeated : ∀ uid, Plan.note [repeated (s.blockField c field).subject uid] ∉
      variantsPlans c (s.blockField c field) [] (.reserving []) field.variants := by
    intro uid member
    have reported := grown.covers _ (among member)
    exact (quiet _ (reported List.mem_cons_self)).2 rfl
  obtain ⟨distinct, planned⟩ := variantsPlans_distinct unrepeated
  exact ⟨distinct, fun v member => among (planned v member).2⟩

theorem Grown.nests_planned {s t : Site} (grown : s.Grown c l) {branch : Branch}
    (nests : s.Nests c branch t) :
    ∃ o nested, .model o nested ∈ s.plans c ∧ t.Outlines c o nested := by
  cases nests with
  | group declared kind =>
    have member := List.mem_of_getElem? declared
    exact ⟨_, _, mem_plans.mpr (.inr ⟨_, member, kind, rfl⟩), s.group_outlines _⟩
  | @variant i j field v declared kind inside =>
    have planned := (grown.variants_distinct quiet (List.mem_of_getElem? declared) kind).2 v
      (List.mem_of_getElem? inside)
    obtain ⟨o, nested, same, outlines⟩ := s.variant_outlines field v
    exact ⟨o, nested, same ▸ planned, outlines⟩

theorem Grown.nests_done {s t : Site} (grown : s.Grown c l) {branch : Branch}
    (nests : s.Nests c branch t) : l.isCompleted (t.key c) = true := by
  obtain ⟨o, nested, planned, outlines⟩ := grown.nests_planned quiet nests
  rw [← outlines.key_eq]
  exact grown.covers _ planned

end Site

end quiet

def Site.Overlaps (c : Context) (s : Site) : Prop :=
  ∃ (i j : Nat) (field other : Field) (v w : Definition),
    s.declared[i]? = some field ∧ s.declared[j]? = some other ∧ i ≠ j ∧
      field.kind = .blocks ∧ other.kind = .blocks ∧ v ∈ field.variants ∧ w ∈ other.variants ∧
      v.uid = w.uid ∧ s.variantName c field v = s.variantName c other w

def Overlapping (c : Context) : Prop := ∃ p s, At c c.registry.all p s ∧ s.Overlaps c

def Alone (c : Context) (p : Position) (s : Site) : Prop :=
  ∀ (q : Position) (t : Site), At c c.registry.all q t → t.directory = s.directory →
    t.name = s.name → q = p

theorem Site.Nests.directory {c : Context} {s t : Site} {branch : Branch}
    (nests : s.Nests c branch t) :
    (∃ i, branch = .group i ∧ t.directory = s.below .group) ∨
      ∃ i j, branch = .variant i j ∧ t.directory = s.below .blocks := by
  cases nests with
  | group => exact .inl ⟨_, rfl, rfl⟩
  | variant => exact .inr ⟨_, _, rfl, rfl⟩

theorem Site.Nests.owner_eq {c : Context} {s s' t u : Site} {branch branch' : Branch}
    (nests : s.Nests c branch t) (other : s'.Nests c branch' u)
    (placed : u.directory = t.directory) : s'.directory = s.directory ∧ s'.name = s.name := by
  rcases nests.directory with ⟨_, _, below⟩ | ⟨_, _, _, below⟩
  all_goals
    rcases other.directory with ⟨_, _, below'⟩ | ⟨_, _, _, below'⟩
    all_goals
      rw [below, below'] at placed
      obtain ⟨scopes, owners, _⟩ := nestedScope_injective placed
      exact ⟨scopes, owners⟩

theorem Site.Grown.branch_unique {c : Context} {roots : List Definition} {l : Ledger}
    (quiet : Quiet l.diagnostics.toList) {p : Position} {s t u : Site} (site : At c roots p s)
    (grown : s.Grown c l) (apart : ¬ s.Overlaps c) {branch branch' : Branch}
    (nests : s.Nests c branch t) (other : s.Nests c branch' u) (keys : u.key c = t.key c)
    (named : u.name = t.name) : branch' = branch := by
  have uids : u.uid = t.uid := congrArg Key.uid keys
  cases nests with
  | @group i field declared kind =>
    cases other with
    | group declared' => rw [grown.fields_distinct quiet site declared' declared uids]
    | variant => cases congrArg Key.role keys
  | @variant i j field v declared kind inside =>
    cases other with
    | group => cases congrArg Key.role keys
    | @variant i' j' field' v' declared' kind' inside' =>
      have variants : v'.uid = v.uid := uids
      -- within a field a uid is that of one variant, so what is left are two fields
      by_cases same : i' = i
      · subst same
        obtain rfl := Option.some.inj (declared.symm.trans declared')
        have distinct := (grown.variants_distinct quiet (List.mem_of_getElem? declared) kind).1
        have bound : j' < field.variants.length := (List.getElem?_eq_some_iff.mp inside').1
        have places : j' = j := by
          apply (List.getElem?_inj (by simpa using bound) distinct).mp
          simp [inside, inside', variants]
        rw [places]
      · exact absurd ⟨i', i, field', field, v', v, declared', declared, same, kind', kind,
          List.mem_of_getElem? inside', List.mem_of_getElem? inside, variants, named⟩ apart

theorem Site.Nests.directory_ne_rootScope {c : Context} {roots : List Definition} {p : Position}
    {s t : Site} {branch : Branch} (nests : s.Nests c branch t) (valid : c.options.Valid)
    (site : At c roots p s) : t.directory ≠ c.rootScope := by
  intro same
  have deep := (site.plain valid).rooted.length_le
  have lengths := congrArg List.length same
  rcases nests.directory with ⟨_, _, below⟩ | ⟨_, _, _, below⟩
  all_goals
    rw [below] at lengths
    simp only [Site.below, nestedScope, List.length_append, List.length_singleton] at lengths
    omega

theorem Quiet.key_unique {c : Context} (quiet : Quiet (finished c).diagnostics.toList)
    {key other : Key} (done : (finished c).isCompleted key = true)
    (otherDone : (finished c).isCompleted other = true) (same : key.qualified = other.qualified) :
    key = other :=
  (finished_consistent c).key_unique quiet.not_colliding done otherDone same

section finished

variable {c : Context} (valid : c.options.Valid)

include valid

theorem Alone.model {p : Position} {s : Site} (alone : Alone c p s)
    (site : At c c.registry.all p s) {plans : List Plan} {l : Ledger} {target : Plan}
    (keyed : target.key? c = some (s.key c)) (purpose : Purpose c c.registry.all plans l target) :
    ∃ o nested, target = .model o nested ∧ s.Outlines c o nested ∧ l.CoversNested c target := by
  cases purpose with
  | note => cases keyed
  | support => exact absurd (congrArg Key.role (Option.some.inj keyed)).symm site.role_ne.1
  | blockSet => exact absurd (congrArg Key.role (Option.some.inj keyed)).symm site.role_ne.2
  | @model q t o nested other outlines inner =>
    have same : t.key c = s.key c := outlines.key_eq.symm.trans (Option.some.inj keyed)
    obtain ⟨placed, named⟩ :=
      (other.plain valid).qualified_injective (site.plain valid) (congrArg Key.qualified same)
    obtain rfl := alone q t other placed named
    obtain rfl := site.unique other
    exact ⟨o, nested, rfl, outlines, inner⟩

theorem definition_alone (coherent : c.registry.Coherent)
    (quiet : Quiet (finished c).diagnostics.toList) {i : Nat} {d : Definition}
    (root : c.registry.all[i]? = some d) : Alone c (.definition i) (.ofDefinition c d) := by
  intro q t other placed named
  cases other with
  | @definition j e there =>
    have keys := quiet.key_unique (definition_done (List.mem_of_getElem? root))
      (definition_done (List.mem_of_getElem? there)) (congrArg (c.qualified c.rootScope) named.symm)
    have uids : d.uid = e.uid := congrArg Key.uid keys
    rw [coherent.position_unique root there uids]
  | nested owner nests => exact absurd placed (nests.directory_ne_rootScope valid owner)

theorem nested_alone (quiet : Quiet (finished c).diagnostics.toList)
    (apart : ¬ Overlapping c) {p : Position} {s t : Site} (site : At c c.registry.all p s)
    (grown : s.Grown c (finished c)) (alone : Alone c p s) {branch : Branch}
    (nests : s.Nests c branch t) : Alone c (.nested p branch) t := by
  intro q u other placed named
  cases other with
  | definition => exact absurd placed.symm (nests.directory_ne_rootScope valid site)
  | @nested p' s' _ branch' owner otherNests =>
    -- the directory tells the owner, so both branches start at one position
    obtain ⟨scopes, owners⟩ := nests.owner_eq otherNests placed
    obtain rfl := alone p' s' owner scopes owners
    obtain rfl := owner.unique site
    have keys : u.key c = t.key c := by
      apply quiet.key_unique (grown.nests_done quiet otherNests) (grown.nests_done quiet nests)
      simp only [Site.key, Context.key_qualified, placed, named]
    have within : ¬ s'.Overlaps c := fun overlaps => apart ⟨p', s', site, overlaps⟩
    rw [grown.branch_unique quiet site within nests otherNests keys named]

theorem site_settled (coherent : c.registry.Coherent)
    (quiet : Quiet (finished c).diagnostics.toList) (apart : ¬ Overlapping c) {p : Position}
    {s : Site} (site : At c c.registry.all p s) :
    s.Grown c (finished c) ∧ (finished c).isCompleted (s.key c) = true ∧ Alone c p s := by
  induction site with
  | definition root =>
    have registered := List.mem_of_getElem? root
    exact ⟨definition_grown coherent registered, definition_done registered,
      definition_alone valid coherent quiet root⟩
  | nested owner nests ih =>
    obtain ⟨grown, _, alone⟩ := ih
    have done := grown.nests_done quiet nests
    have single := nested_alone valid quiet apart owner grown alone nests
    obtain ⟨target, keyed, purpose⟩ := exists_purpose_of_done (generationPlans_rooted c) done
    obtain ⟨o, nested, rfl, outlines, covered⟩ :=
      single.model valid (.nested owner nests) keyed purpose
    exact ⟨⟨o, nested, outlines, covered⟩, done, single⟩

end finished

structure Site.ShownBy (c : Context) (s : Site) (u : GeneratedUnit) : Prop where
  kind : u.kind = .model
  name : u.name = s.name
  directory : u.directoryPath = s.directory
  wires : u.members.map (·.wire) = s.fields.map (·.uid)
  wrapper : ∀ wrapper, s.wrapper = some wrapper → u.bases = [wrapper]

theorem Site.Outlines.shownBy {c : Context} {s : Site} {o : Outline} {nested : List Plan}
    (outlines : s.Outlines c o nested) : s.ShownBy c (o.unit c) where
  kind := rfl
  name := outlines.name
  directory := outlines.scope
  wires := by
    have pairs := congrArg (List.map Prod.fst) outlines.models.members
    rwa [List.map_map, List.map_map] at pairs
  wrapper := outlines.bases

theorem exists_shown {c : Context} (valid : c.options.Valid) (coherent : c.registry.Coherent)
    (quiet : Quiet (finished c).diagnostics.toList) (apart : ¬ Overlapping c) {p : Position}
    {s : Site} (site : At c c.registry.all p s) :
    ∃ u ∈ (finished c).units.toList, s.ShownBy c u := by
  obtain ⟨_, done, alone⟩ := site_settled valid coherent quiet apart site
  obtain ⟨u, member, target, emits, keyed, purpose⟩ :=
    exists_unit_of_done quiet.not_colliding done
  obtain ⟨o, nested, rfl, outlines, _⟩ := alone.model valid site keyed purpose
  cases emits
  exact ⟨_, member, outlines.shownBy⟩

def Complete (c : Context) (units : List GeneratedUnit) : Prop :=
  ∃ model : {p // ∃ s, At c c.registry.all p s} → GeneratedUnit, Function.Injective model ∧
    ∀ p s, ∀ site : At c c.registry.all p s,
      model ⟨p, s, site⟩ ∈ units ∧ s.ShownBy c (model ⟨p, s, site⟩)

theorem complete_of_apart {c : Context} (valid : c.options.Valid) (coherent : c.registry.Coherent)
    (quiet : Quiet (finished c).diagnostics.toList) (apart : ¬ Overlapping c) :
    Complete c (finished c).output.units := by
  have shown : ∀ x : {p // ∃ s, At c c.registry.all p s}, ∃ u ∈ (finished c).units.toList,
      ∀ s, At c c.registry.all x.1 s → s.ShownBy c u := by
    rintro ⟨p, s, site⟩
    obtain ⟨u, member, shows⟩ := exists_shown valid coherent quiet apart site
    exact ⟨u, member, fun t again => site.unique again ▸ shows⟩
  choose model member shows using shown
  refine ⟨model, ?_, fun p s site => ⟨member _, shows _ s site⟩⟩
  rintro ⟨p, s, site⟩ ⟨q, t, other⟩ same
  have first := shows ⟨p, s, site⟩ s site
  have second := shows ⟨q, t, other⟩ t other
  rw [same] at first
  have alone := (site_settled valid coherent quiet apart site).2.2
  exact Subtype.ext (alone q t other (second.directory.symm.trans first.directory)
    (second.name.symm.trans first.name)).symm

theorem not_complete_of_overlapping {c : Context} (valid : c.options.Valid)
    (overlapping : Overlapping c) : ¬ Complete c (finished c).output.units := by
  rintro ⟨model, injective, shows⟩
  obtain ⟨p, s, site, i, j, field, other, v, w, first, second, apart, kind, otherKind, inside,
    otherInside, uids, names⟩ := overlapping
  obtain ⟨k, here⟩ := List.mem_iff_getElem?.mp inside
  obtain ⟨m, there⟩ := List.mem_iff_getElem?.mp otherInside
  have left : At c c.registry.all (.nested p (.variant i k)) (s.variant c field v) :=
    .nested site (.variant first kind here)
  have right : At c c.registry.all (.nested p (.variant j m)) (s.variant c other w) :=
    .nested site (.variant second otherKind there)
  obtain ⟨leftMember, leftShown⟩ := shows _ _ left
  obtain ⟨rightMember, rightShown⟩ := shows _ _ right
  -- both variants would have to be shown by the one unit that has their name
  have equal : model ⟨_, _, left⟩ = model ⟨_, _, right⟩ := by
    apply List.inj_on_of_nodup_map (finished_consistent c).distinct leftMember rightMember
    rw [(finished_proper valid leftMember).qualifiedName,
      (finished_proper valid rightMember).qualifiedName, leftShown.directory, leftShown.name,
      rightShown.directory, rightShown.name]
    exact congrArg (c.qualified (s.below .blocks)) names
  cases congrArg Subtype.val (injective equal)
  exact apart rfl

theorem generate_complete_iff {registry : Registry} (built : registry.Built) {options : Options}
    (valid : options.Valid) :
    ∃ output, generate registry options = .ok output ∧ (Quiet output.diagnostics →
      (Complete ⟨registry, options⟩ output.units ↔ ¬ Overlapping ⟨registry, options⟩)) := by
  refine ⟨_, generate_eq registry options, fun quiet => ⟨fun complete overlapping => ?_, ?_⟩⟩
  · exact not_complete_of_overlapping valid overlapping complete
  · exact complete_of_apart valid built.coherent quiet

-- The labels and the titles are cut differently out of the same words, Foo Bar Baz.
def twins : Registry := .ofList
  [.new "page" "Page"
    [((Field.new "a" .blocks).named "Foo").withBlocks [.new "x" "Bar Baz" [.new "left" .text]],
      ((Field.new "b" .blocks).named "Foo Bar").withBlocks [.new "x" "Baz" [.new "right" .text]]]]

theorem twins_overlapping : Overlapping ⟨twins, { supportUnits := false }⟩ := by
  refine ⟨.definition 0, _, .definition rfl, 0, 1, _, _, _, _, rfl, rfl, by decide, rfl, rfl,
    List.mem_singleton_self _, List.mem_singleton_self _, rfl, ?_⟩
  decide +kernel

theorem twins_quiet {output : Output}
    (generated : generate twins { supportUnits := false } = .ok output) :
    Quiet output.diagnostics := by
  have silent : (generate twins { supportUnits := false }).toOption.map (·.diagnostics) =
      some [] := by
    decide +kernel
  rw [generated] at silent
  have empty : output.diagnostics = [] := Option.some.inj silent
  rw [empty]
  exact List.forall_mem_nil _

theorem twins_complete_iff : twins.Built ∧ Options.Valid { supportUnits := false } ∧
    ∃ output, generate twins { supportUnits := false } = .ok output ∧ Quiet output.diagnostics ∧
      (Complete ⟨twins, { supportUnits := false }⟩ output.units ↔
        ¬ Overlapping ⟨twins, { supportUnits := false }⟩) := by
  have built : twins.Built := .extend .empty _
  have valid : Options.Valid { supportUnits := false } := ⟨by decide, by decide, by decide⟩
  obtain ⟨output, generated, equivalent⟩ := generate_complete_iff built valid
  have quiet := twins_quiet generated
  exact ⟨built, valid, output, generated, quiet, equivalent quiet⟩

theorem twins_lose_variant : twins.Built ∧ Options.Valid { supportUnits := false } ∧
    ∃ output, generate twins { supportUnits := false } = .ok output ∧ Quiet output.diagnostics ∧
      ¬ Complete ⟨twins, { supportUnits := false }⟩ output.units := by
  have valid : Options.Valid { supportUnits := false } := ⟨by decide, by decide, by decide⟩
  have generated := generate_eq twins { supportUnits := false }
  have lost := @not_complete_of_overlapping ⟨twins, { supportUnits := false }⟩ valid
    twins_overlapping
  exact ⟨.extend .empty _, valid, _, generated, twins_quiet generated, lost⟩

end ContentModels.Emission
