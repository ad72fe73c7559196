import ContentModels.Proofs.Config
import ContentModels.Proofs.Emission.Closure
import ContentModels.Proofs.Emission.Independence
import ContentModels.Proofs.Emission.Uniqueness

set_option autoImplicit false

namespace ContentModels

open Naming

namespace GeneratedUnit

def LeadsInto (u v : GeneratedUnit) : Prop :=
  u.qualifiedName = v.namespaceName ∨ ∃ rest, v.namespaceName = u.qualifiedName ++ "." ++ rest

end GeneratedUnit

theorem intercalate_prefix_iff {xs ys : List String} (someX : xs ≠ []) (someY : ys ≠ [])
    (plainX : ∀ x ∈ xs, '.' ∉ x.toList) (plainY : ∀ y ∈ ys, '.' ∉ y.toList) :
    xs <+: ys ↔ ".".intercalate xs = ".".intercalate ys ∨
      ∃ rest, ".".intercalate ys = ".".intercalate xs ++ "." ++ rest := by
  have single : ".".toList = ['.'] := rfl
  constructor
  · rintro ⟨rest, rfl⟩
    by_cases none : rest = []
    · simp [none]
    · exact .inr ⟨_, String.intercalate_append_of_ne_nil someX none⟩
  · rintro (same | ⟨rest, longer⟩)
    · rw [intercalate_injective single someX someY plainX plainY same]
    · have pieces := Text.splitOn_append single (".".intercalate xs) rest
      rw [← longer, Text.splitOn_intercalate_plain single someX plainX,
        Text.splitOn_intercalate_plain single someY plainY] at pieces
      exact ⟨_, pieces.symm⟩

namespace Emission

variable {c : Context}

theorem Proper.leadsInto_iff {u v : GeneratedUnit} (proper : Proper c u) (other : Proper c v) :
    u.LeadsInto v ↔ u.directoryPath ++ [u.name] <+: v.directoryPath := by
  have inner : u.qualifiedName =
      c.options.namespaceName ++ "." ++ ".".intercalate (u.directoryPath ++ [u.name]) :=
    proper.qualifiedName.trans (c.namespaceName_eq (by simp))
  have around : v.namespaceName =
      c.options.namespaceName ++ "." ++ ".".intercalate v.directoryPath := by
    rw [GeneratedUnit.namespaceName, other.namespaced]
    exact c.namespaceName_eq other.nested
  have plain : ∀ segment ∈ v.directoryPath, '.' ∉ segment.toList := fun segment member =>
    other.plain (by decide) segment (List.mem_append_left _ member)
  rw [intercalate_prefix_iff (by simp) other.nested (proper.plain (by decide)) plain,
    GeneratedUnit.LeadsInto, inner, around]
  -- the namespace of all models is in front of both and may hold dots of its own
  simp only [String.append_assoc, String.append_right_inj]

def Ledger.Settled (l : Ledger) : Prop :=
  ∀ (name : String) (key : Key), l.claimed[name]? = some key → l.isCompleted key = true

theorem Ledger.enter_settled {l : Ledger} (settled : l.Settled) (entry : Entry) :
    (l.enter entry).Settled := by
  cases entry with
  | note => exact settled
  | skipped => exact settled
  | unit uid role u =>
    intro name key claimed
    rw [enter, settle_claimed] at claimed
    rw [enter, settle_isCompleted, push_isCompleted]
    rcases l.push_cases (unitKey uid role u) u with ⟨_, pushed⟩ | ⟨_, pushed⟩ | ⟨_, _, pushed⟩
    · rw [pushed, Std.TreeMap.getElem?_insert] at claimed
      split at claimed
      · exact .inl (Option.some.inj claimed).symm
      · exact .inr (settled name key claimed)
    · exact .inr (settled name key (pushed ▸ claimed))
    · rw [pushed] at claimed
      exact .inr (settled name key claimed)

theorem Ledger.enterAll_settled {l : Ledger} (settled : l.Settled) (journal : List Entry) :
    (l.enterAll journal).Settled := by
  induction journal generalizing l with
  | nil => exact settled
  | cons entry rest ih => exact ih (enter_settled settled entry)

theorem Site.Nests.below {s t : Site} {branch : Branch} (nests : s.Nests c branch t) :
    ∃ role : NestedRole, t.directory = s.below role ∧
      ∃ field ∈ s.declared, field.kind = role.kind := by
  cases nests with
  | group declared kind => exact ⟨.group, rfl, _, List.mem_of_getElem? declared, kind⟩
  | variant declared kind => exact ⟨.blocks, rfl, _, List.mem_of_getElem? declared, kind⟩

theorem Site.Outlines.nested_longer {s : Site} {o : Outline} {nested : List Plan}
    (outlines : s.Outlines c o nested) : ∀ plan ∈ nested, plan.Within c fun name =>
      (c.qualified s.directory s.name).length < name.length := by
  intro plan member
  rcases outlines.within plan member with planned | ⟨diagnostics, rfl⟩
  · cases Site.placed_of_mem planned with
    | note => exact .note nofun
    | @blockSet field u _ _ own =>
      refine .unit fun key keyed => ?_
      cases keyed
      obtain ⟨namespaced, placed, _⟩ := mem_blockSet own
      have below : u.directoryPath = s.below .blocks := placed
      rw [unitKey, qualifiedName_eq c (placed ▸ namespaced), below]
      exact c.qualified_length_lt ..
    | @model _ t inner _ nests below =>
      have smaller := List.sizeOf_lt_of_mem member
      obtain ⟨role, placed, _⟩ := nests.below
      have longer : (c.qualified s.directory s.name).length <
          (c.qualified t.directory t.name).length := by
        rw [placed]
        exact c.qualified_length_lt ..
      refine .model ?_ fun plan deeper => ?_
      · intro key keyed
        cases keyed
        rwa [Outline.key_qualified, below.scope, below.name]
      · exact (below.nested_longer plan deeper).mono fun _ own key keyed =>
          longer.trans (own key keyed)
  · exact .note nofun
termination_by sizeOf nested
decreasing_by simp only [Plan.model.sizeOf_spec] at smaller; omega

def Plan.Outlined (c : Context) (roots : List Definition) (plan : Plan) : Prop :=
  ∀ o nested, plan = .model o nested → ∃ p s, At c roots p s ∧ s.Outlines c o nested

def Owned (c : Context) (roots : List Definition) (units : List GeneratedUnit)
    (u : GeneratedUnit) : Prop :=
  ∃ p s o nested, At c roots p s ∧ s.Outlines c o nested ∧ o.unit c ∈ units ∧
    ∃ plan ∈ nested, plan.unit? c = some u

theorem Owned.mono {roots : List Definition} {units more : List GeneratedUnit} {u : GeneratedUnit}
    (owned : Owned c roots units u) (among : units ⊆ more) : Owned c roots more u := by
  obtain ⟨p, s, o, nested, site, outlines, member, inner⟩ := owned
  exact ⟨p, s, o, nested, site, outlines, among member, inner⟩

namespace Plan

theorem run_model_pushes {s : Site} {o : Outline} {nested : List Plan}
    (outlines : s.Outlines c o nested) {l : Ledger} (settled : l.Settled)
    (undone : ¬ l.isCompleted (o.key c) = true)
    (quiet : ¬ (run c (.model o nested) l).Colliding) :
    o.unit c ∈ (run c (.model o nested) l).units.toList := by
  let inner := runAll c nested (l.report (unnamed o.label o.name (o.key c).qualified))
  have frame := (runAll_local fun plan member => run_local (outlines.nested_longer plan member)).frame
    (l.report (unnamed o.label o.name (o.key c).qualified))
  have kept : inner.claimed[(o.unit c).qualifiedName]? = l.claimed[(o.unit c).qualifiedName]? := by
    apply frame.claimed
    rw [Outline.unit_qualifiedName, outlines.scope, outlines.name]
    exact lt_irrefl _
  rw [run_model c undone] at quiet ⊢
  rcases (inner.report (o.declared c).2).push_cases (o.key c) (o.unit c) with
    ⟨_, pushed⟩ | ⟨known, _⟩ | ⟨owner, _, pushed⟩
  · rw [pushed]
    simp
  · exact absurd (settled _ _ (kept ▸ known)) undone
  · refine absurd ⟨Ledger.collision (o.key c) owner (o.unit c).qualifiedName, ?_, rfl⟩ quiet
    rw [pushed]
    simp

theorem run_settled (plan : Plan) {l : Ledger} (settled : l.Settled) : (run c plan l).Settled :=
  Ledger.enterAll_settled settled _

mutual

theorem run_owned {roots : List Definition} {plan : Plan} (outlined : plan.Every (Outlined c roots))
    {l : Ledger} (settled : l.Settled) (quiet : ¬ (run c plan l).Colliding) {u : GeneratedUnit}
    (member : u ∈ (run c plan l).units.toList) :
    u ∈ l.units.toList ∨ plan.unit? c = some u ∨
      Owned c roots (run c plan l).units.toList u := by
  match plan with
  | .note diagnostics => exact .inl member
  | .unit uid role own =>
    rw [run_unit, Ledger.pushOnce] at member
    split at member
    · exact .inl member
    · exact (Ledger.mem_push member).imp (by simp) fun same => .inl (congrArg some same.symm)
  | .model o nested =>
    by_cases done : l.isCompleted (o.key c) = true
    · rw [run_model_done c done] at member
      exact .inl member
    cases outlined with
    | model own inner =>
      obtain ⟨p, s, site, outlines⟩ := own o nested rfl
      have pushed := run_model_pushes outlines settled done quiet
      have later := (run_model_extends c done nested).1
      have opened : (l.report (unnamed o.label o.name (o.key c).qualified)).Settled := settled
      rw [run_model c done, Ledger.settle_units] at member
      rcases Ledger.mem_push member with earlier | rfl
      · rcases runAll_owned inner opened (fun colliding => quiet (colliding.mono later)) earlier
          with before | ⟨plan, among, emits⟩ | owned
        · exact .inl before
        · exact .inr (.inr ⟨p, s, o, nested, site, outlines, pushed, plan, among, emits⟩)
        · exact .inr (.inr (owned.mono later.units.subset))
      · exact .inr (.inl rfl)

theorem runAll_owned {roots : List Definition} {plans : List Plan}
    (outlined : ∀ plan ∈ plans, plan.Every (Outlined c roots)) {l : Ledger} (settled : l.Settled)
    (quiet : ¬ (runAll c plans l).Colliding) {u : GeneratedUnit}
    (member : u ∈ (runAll c plans l).units.toList) :
    u ∈ l.units.toList ∨ (∃ plan ∈ plans, plan.unit? c = some u) ∨
      Owned c roots (runAll c plans l).units.toList u := by
  match plans with
  | [] => exact .inl member
  | plan :: rest =>
    rw [runAll_cons] at quiet member ⊢
    have later := runAll_extends c rest (run c plan l)
    rcases runAll_owned (fun other among => outlined other (List.mem_cons_of_mem plan among))
      (run_settled plan settled) quiet member with earlier | ⟨other, among, emits⟩ | owned
    · rcases run_owned (outlined plan List.mem_cons_self) settled
        (fun colliding => quiet (colliding.mono later)) earlier with before | emits | owned
      · exact .inl before
      · exact .inr (.inl ⟨plan, List.mem_cons_self, emits⟩)
      · exact .inr (.inr (owned.mono later.units.subset))
    · exact .inr (.inl ⟨other, List.mem_cons_of_mem plan among, emits⟩)
    · exact .inr (.inr owned)

end

end Plan

theorem generationPlans_outlined {plan : Plan} (planned : plan ∈ generationPlans c) :
    plan.Every (Plan.Outlined c c.registry.all) := by
  rcases generationPlans_rooted c plan planned with support | ⟨d, registered, rfl⟩
  · obtain ⟨u, _, rfl⟩ := List.mem_map.mp support
    exact .unit nofun
  · refine (definitionPlan_sited registered).mono ?_
    rintro plan (_ | _ | @⟨p, s, _, _, site, outlines⟩) o nested ⟨⟩
    exact ⟨p, s, site, outlines⟩

def Holds (c : Context) (v : GeneratedUnit) (scope : Scope) : Prop :=
  ∃ role, scope = nestedScope v.directoryPath v.name role ∧ c.namespaceName scope ∈ v.imports

theorem Owned.held {roots : List Definition} {units : List GeneratedUnit} {u : GeneratedUnit}
    (owned : Owned c roots units u) : ∃ v ∈ units, Holds c v u.directoryPath := by
  obtain ⟨p, s, o, nested, site, outlines, member, plan, inside, emits⟩ := owned
  have placed : ∃ role : NestedRole, u.directoryPath = s.below role ∧
      ∃ field ∈ s.declared, field.kind = role.kind := by
    rcases outlines.within plan inside with planned | ⟨diagnostics, rfl⟩
    · cases Site.placed_of_mem planned with
      | note => cases emits
      | @blockSet field _ declared kind own =>
        cases emits
        exact ⟨.blocks, (mem_blockSet own).2.1, field, declared, kind⟩
      | @model _ t inner _ nests below =>
        cases emits
        obtain ⟨role, placed, some⟩ := nests.below
        exact ⟨role, below.scope.trans placed, some⟩
    · cases emits
  obtain ⟨role, placed, field, declared, kind⟩ := placed
  refine ⟨_, member, role, ?_, ?_⟩
  · rw [placed, Site.below, ← outlines.scope, ← outlines.name]
    rfl
  · -- only what a site declares itself is placed below it
    have own : s.toContent = .own s.fields s.name s.directory := by
      rcases site.content_cases with own | none | ⟨_, _, _, global⟩
      · exact own
      · have empty : s.declared = [] := congrArg Content.declared none
        simp [empty] at declared
      · have empty : s.declared = [] := congrArg Content.declared global
        simp [empty] at declared
    have fields : s.declared = s.fields := congrArg Content.declared own
    have imports : (o.unit c).imports = nestedNamespaces c s.home s.owner s.fields :=
      outlines.imports
    rw [imports, mem_nestedNamespaces, placed, own]
    exact ⟨role, ⟨field, fields ▸ declared, kind⟩, rfl⟩

theorem finished_held (quiet : ¬ (finished c).Colliding) {u : GeneratedUnit}
    (member : u ∈ (finished c).units.toList) :
    u.directoryPath = c.rootScope ∨
      ∃ v ∈ (finished c).units.toList, Holds c v u.directoryPath := by
  have empty : Ledger.Settled {} := by
    intro name key claimed
    simp at claimed
  rcases Plan.runAll_owned (fun _ => generationPlans_outlined) empty quiet member with
    before | ⟨plan, planned, emits⟩ | owned
  · simp at before
  · rcases generationPlans_rooted c plan planned with support | ⟨d, _, rfl⟩
    · obtain ⟨v, known, rfl⟩ := List.mem_map.mp support
      cases emits
      exact .inl (mem_supportUnits known).2.1
    · cases emits
      exact .inl rfl
  · exact .inr owned.held

-- Below a directory there are only units that somewhere above are held by a unit beside it.
theorem exists_holder (quiet : ¬ (finished c).Colliding) {scope : Scope} {name : String}
    (some : scope ≠ []) {u : GeneratedUnit} (member : u ∈ (finished c).units.toList)
    (below : scope ++ [name] <+: u.directoryPath) :
    ∃ v ∈ (finished c).units.toList, v.directoryPath = scope ∧ Holds c v (scope ++ [name]) := by
  rcases finished_held quiet member with root | ⟨v, kept, role, placed, imported⟩
  · have lengths := below.length_le
    have nonempty := List.length_pos_iff.mpr some
    simp only [root, Context.rootScope, List.length_append, List.length_singleton] at lengths
    omega
  · have shorter : v.directoryPath.length < u.directoryPath.length := by
      rw [placed, nestedScope]
      simp
    rw [placed] at below imported
    rw [nestedScope, List.prefix_concat_iff] at below
    rcases below with same | above
    · obtain ⟨rfl, rfl⟩ := List.append_inj' same rfl |>.imp_right List.singleton_inj.mp
      exact ⟨v, kept, rfl, role, rfl, imported⟩
    · exact exists_holder quiet some kept above
termination_by u.directoryPath.length

def TypesApart (units : List GeneratedUnit) : Prop := ∀ u ∈ units, ∀ v ∈ units, ¬ u.LeadsInto v

-- Whether a type is named like the namespace that a model beside it imports its own types from.
def Obscures (u v : GeneratedUnit) : Prop :=
  u.directoryPath = v.directoryPath ∧ (∃ role, u.name = nestedDirectory v.name role) ∧
    u.qualifiedName ∈ v.imports

theorem finished_typesApart_iff (valid : c.options.Valid) (coherent : c.registry.Coherent)
    (quiet : ¬ (finished c).Colliding) :
    TypesApart (finished c).units.toList ↔
      ∀ u ∈ (finished c).units.toList, ∀ v ∈ (finished c).units.toList, ¬ Obscures u v := by
  constructor
  · rintro apart u member v kept ⟨_, _, imported⟩
    -- a namespace that is imported has units
    obtain ⟨w, inside, spaced⟩ := (finished_closed valid coherent).imports v kept _ imported
    exact apart u member w inside (.inl spaced.symm)
  · intro apart u member w inside leads
    have proper := finished_proper valid member
    have below := (proper.leadsInto_iff (finished_proper valid inside)).mp leads
    obtain ⟨v, kept, beside, role, named, imported⟩ :=
      exists_holder quiet proper.nested inside below
    refine apart u member v kept ⟨beside.symm, ⟨role, ?_⟩, ?_⟩
    · exact List.singleton_inj.mp (List.append_inj' named rfl).2
    · rw [proper.qualifiedName]
      exact imported

theorem generate_typesApart_iff {config : Config} (accepted : config.validate = .ok ())
    {registry : Registry} (built : registry.Built) (policy : ReferencePolicy) :
    ∃ output, generate registry (config.emissionOptions policy) = .ok output ∧
      ((∀ d ∈ output.diagnostics, d.kind ≠ .nameCollision) →
        (TypesApart output.units ↔
          ∀ u ∈ output.units, ∀ v ∈ output.units, ¬ Obscures u v)) := by
  refine ⟨_, generate_eq registry (config.emissionOptions policy), ?_⟩
  rw [Ledger.output_units, Ledger.output_diagnostics]
  intro quiet
  apply finished_typesApart_iff (Config.emissionOptions_valid accepted policy) built.coherent
  rintro ⟨d, member, kind⟩
  exact quiet d member kind

def pages : Registry := .ofList
  [.new "page" "Page" [(Field.new "body" .blocks).named "Body"], .new "page_blocks" "Page Blocks" []]

theorem pages_shown {output : Output}
    (generated : generate pages (Config.emissionOptions {} .asDeclared) = .ok output) :
    output.diagnostics = [] ∧ ∃ u ∈ output.units, ∃ v ∈ output.units,
      u.qualifiedName = "ContentstackModels.Models.PageBlocks" ∧
        v.namespaceName = "ContentstackModels.Models.PageBlocks" := by
  have shown : (generate pages (Config.emissionOptions {} .asDeclared)).toOption.map (fun output =>
      (output.diagnostics, output.units.any fun u => output.units.any fun v =>
        u.qualifiedName = "ContentstackModels.Models.PageBlocks" ∧
          v.namespaceName = "ContentstackModels.Models.PageBlocks")) = some ([], true) := by
    decide +kernel
  rw [generated] at shown
  simpa [Except.toOption] using shown

theorem pages_typesApart_iff : Config.validate {} = .ok () ∧ pages.Built ∧
    ∃ output, generate pages (Config.emissionOptions {} .asDeclared) = .ok output ∧
      (∀ d ∈ output.diagnostics, d.kind ≠ .nameCollision) ∧
      (TypesApart output.units ↔ ∀ u ∈ output.units, ∀ v ∈ output.units, ¬ Obscures u v) := by
  have built : pages.Built := .extend .empty _
  obtain ⟨output, generated, equivalent⟩ :=
    generate_typesApart_iff Config.default_validate built .asDeclared
  have quiet : ∀ d ∈ output.diagnostics, d.kind ≠ .nameCollision := by
    simp [(pages_shown generated).1]
  exact ⟨Config.default_validate, built, output, generated, quiet, equivalent quiet⟩

theorem pages_share_name : Config.validate {} = .ok () ∧ pages.Built ∧
    ∃ output, generate pages (Config.emissionOptions {} .asDeclared) = .ok output ∧
      output.diagnostics = [] ∧ (∃ u ∈ output.units, ∃ v ∈ output.units,
        u.qualifiedName = "ContentstackModels.Models.PageBlocks" ∧
          v.namespaceName = "ContentstackModels.Models.PageBlocks") ∧
      ¬ TypesApart output.units := by
  have generated := generate_eq pages (Config.emissionOptions {} .asDeclared)
  obtain ⟨silent, u, member, v, kept, called, spaced⟩ := pages_shown generated
  exact ⟨Config.default_validate, .extend .empty _, _, generated, silent,
    ⟨u, member, v, kept, called, spaced⟩,
    fun apart => apart u member v kept (.inl (called.trans spaced.symm))⟩

end Emission

end ContentModels
