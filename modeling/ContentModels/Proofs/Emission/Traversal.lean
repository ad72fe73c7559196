import ContentModels.Emission
import ContentModels.Proofs.Emission.Plan
import ContentModels.Proofs.Schema

set_option autoImplicit false

namespace ContentModels.Emission

open Naming

namespace BlockField

def ofField (c : Context) (scope : Scope) (owner : String) (field : Field) : BlockField where
  subject := owner ++ "." ++ field.uid
  wrapper := nestedTypeName c.options.prefixes .blocks owner field
  scope := nestedScope scope owner .blocks

def tags (b : BlockField) (seen : List String) (names : MemberNames) :
    List Definition → List VariantTag
  | [] => []
  | variant :: rest =>
    if seen.contains variant.uid then b.tags seen names rest
    else
      let (tag, names, _) := b.tag names variant
      tag :: b.tags (variant.uid :: seen) names rest

def setPlans (c : Context) (b : BlockField) (uid : String) (variants : List Definition) :
    List Plan :=
  (blockSet c b.scope b.wrapper (b.tags [] (.reserving []) variants)).map (.unit uid .blockSet)

end BlockField

mutual

def fieldsPlans (c : Context) (scope : Scope) (owner : String) (role : NestedRole) :
    List Field → List Plan
  | [] => []
  | field :: rest => fieldPlans c scope owner role field ++ fieldsPlans c scope owner role rest

def fieldPlans (c : Context) (scope : Scope) (owner : String) (role : NestedRole) :
    Field → List Plan
  | ⟨uid, displayName, kind, isMultiple, reference, metadata, nested, variants⟩ =>
    let field : Field :=
      ⟨uid, displayName, kind, isMultiple, reference, metadata, nested, variants⟩
    match role, kind with
    | .blocks, .blocks =>
      let b := BlockField.ofField c scope owner field
      .note (unnamed field.label b.wrapper b.subject) ::
        (variantsPlans c b [] (.reserving []) variants ++ b.setPlans c uid variants)
    | .group, .group =>
      let o := Outline.ofGroup c (nestedScope scope owner .group) owner field
      [.model o
        (fieldsPlans c o.scope o.name .blocks nested ++ fieldsPlans c o.scope o.name .group nested)]
    | _, _ => []

def variantsPlans (c : Context) (b : BlockField) (seen : List String) (names : MemberNames) :
    List Definition → List Plan
  | [] => []
  | variant :: rest =>
    if seen.contains variant.uid then
      .note [repeated b.subject variant.uid] :: variantsPlans c b seen names rest
    else
      let (_, names, found) := b.tag names variant
      variantPlan c b.scope b.wrapper variant :: .note found ::
        variantsPlans c b (variant.uid :: seen) names rest

def variantPlan (c : Context) (scope : Scope) (wrapper : String) : Definition → Plan
  | ⟨uid, title, fields, referenceTo, origin⟩ =>
    let variant : Definition := ⟨uid, title, fields, referenceTo, origin⟩
    match referenceTo with
    | some globalField =>
      let found := c.registry.lookup globalField
      .model (Outline.ofGlobalField c scope wrapper variant found)
        [.note (if found.isSome then [] else [unregistered wrapper uid globalField])]
    | none =>
      let o := Outline.ofVariant c scope wrapper variant
      .model o
        (fieldsPlans c o.scope o.name .blocks fields ++ fieldsPlans c o.scope o.name .group fields)

end

def nestedPlans (c : Context) (scope : Scope) (owner : String) (fields : List Field) : List Plan :=
  fieldsPlans c scope owner .blocks fields ++ fieldsPlans c scope owner .group fields

def Outline.plan (c : Context) (o : Outline) : Plan :=
  .model o (nestedPlans c o.scope o.name o.fields)

def BlockField.plans (c : Context) (b : BlockField) (field : Field) : List Plan :=
  .note (unnamed field.label b.wrapper b.subject) ::
    (variantsPlans c b [] (.reserving []) field.variants ++ b.setPlans c field.uid field.variants)

def definitionPlan (c : Context) (d : Definition) : Plan := (Outline.ofEntry c d).plan c

def supportPlans (c : Context) : List Plan :=
  (supportUnits c.registry (c.namespacePath c.rootScope) c.rootScope).map
    fun unit => .unit unit.name .support unit

def Request.plans (c : Context) : Request → List Plan
  | .definition d => [definitionPlan c d]
  | .registered uid => (c.registry.lookup uid).toList.map (definitionPlan c)
  | .support => supportPlans c

-- What a request is answered, whatever has been emitted before.
def Request.reply (c : Context) (request : Request) : Except GenerationFailure (Option String) :=
  (request.target c).map (Option.map fun d => definitionName d.title d.uid)

def generationPlans (c : Context) : List Plan :=
  (if c.options.supportUnits then supportPlans c else []) ++
    c.registry.all.map (definitionPlan c)

namespace Emitter

variable {α β : Type} {act : Emitter α} {l middle : Ledger}

theorem runFrom_bind {next : α → Emitter β} {a : α} (first : act.runFrom l = (.ok a, middle)) :
    (act >>= next).runFrom l = (next a).runFrom middle := by
  unfold runFrom at first ⊢
  rw [ExceptT.run_bind, StateT.run_bind, first]
  rfl

theorem runFrom_modify_bind (change : Ledger → Ledger) (next : Unit → Emitter β) :
    ((modify change : Emitter Unit) >>= next).runFrom l = (next ()).runFrom (change l) := rfl

theorem runFrom_get_bind (next : Ledger → Emitter β) :
    ((get : Emitter Ledger) >>= next).runFrom l = (next l).runFrom l := rfl

end Emitter

namespace Ledger

def within (l : Ledger) (stack : List Key) : Ledger := { l with inProgress := stack }

@[simp] theorem within_isCompleted (l : Ledger) (stack : List Key) (key : Key) :
    (l.within stack).isCompleted key = l.isCompleted key := rfl

@[simp] theorem within_report (l : Ledger) (stack : List Key) (diagnostics : List Diagnostic) :
    (l.within stack).report diagnostics = (l.report diagnostics).within stack := rfl

@[simp] theorem within_settle (l : Ledger) (stack : List Key) (key : Key) :
    (l.within stack).settle key = (l.settle key).within stack := by
  unfold settle
  rw [within_isCompleted]
  split <;> rfl

@[simp] theorem within_push (l : Ledger) (stack : List Key) (key : Key) (unit : GeneratedUnit) :
    (l.within stack).push key unit = (l.push key unit).within stack := by
  unfold push
  cases claimed : l.claimed[unit.qualifiedName]? with
  | none => simp [within, claimed]
  | some owner =>
    by_cases same : owner = key <;> simp [within, claimed, same, report]

@[simp] theorem within_enter (l : Ledger) (stack : List Key) (entry : Entry) :
    (l.within stack).enter entry = (l.enter entry).within stack := by
  cases entry <;> simp [enter]

@[simp] theorem within_enterAll (l : Ledger) (stack : List Key) (journal : List Entry) :
    (l.within stack).enterAll journal = (l.enterAll journal).within stack := by
  induction journal generalizing l with
  | nil => rfl
  | cons entry rest ih => simp [ih]

theorem complete_within (l : Ledger) (key : Key) {stack : List Key}
    (before : l.inProgress = stack) (fresh : key ∉ stack) :
    (l.within (stack ++ [key])).complete key = l.settle key := by
  have emptied : (stack ++ [key]).filter (· ≠ key) = l.inProgress := by
    rw [List.filter_append, List.filter_eq_self.mpr, before]
    · simp
    · exact fun other member => decide_eq_true (ne_of_mem_of_not_mem member fresh)
  simp only [complete, within, emptied]

-- No key in progress is as long as a name in the scope, so none of them is met again there.
def Above (l : Ledger) (c : Context) (scope : Scope) : Prop :=
  ∀ key ∈ l.inProgress, ∀ name, key.qualified.length < (c.qualified scope name).length

theorem Above.report {l : Ledger} {c : Context} {scope : Scope} (above : l.Above c scope)
    (diagnostics : List Diagnostic) : (l.report diagnostics).Above c scope :=
  fun key member => above key member

def Around (l : Ledger) (c : Context) (scope : Scope) (owner : String) : Prop :=
  ∀ key ∈ l.inProgress, key.qualified.length ≤ (c.qualified scope owner).length

theorem Around.above {l : Ledger} {c : Context} {scope : Scope} {owner : String}
    (around : l.Around c scope owner) (role : NestedRole) :
    l.Above c (nestedScope scope owner role) := by
  intro key member name
  have longer := c.qualified_length_lt scope owner name role
  have bound := around key member
  omega

end Ledger

namespace Plan

variable (c : Context)

mutual

theorem entries_within (plan : Plan) (l : Ledger) (stack : List Key) :
    entries c plan (l.within stack) = entries c plan l := by
  match plan with
  | .note diagnostics => rfl
  | .unit uid role own => rfl
  | .model o nested => simp [entries, allEntries_within nested]

theorem allEntries_within (plans : List Plan) (l : Ledger) (stack : List Key) :
    allEntries c plans (l.within stack) = allEntries c plans l := by
  match plans with
  | [] => rfl
  | plan :: rest => simp [allEntries, entries_within plan, allEntries_within rest]

end

@[simp] theorem runAll_within (plans : List Plan) (l : Ledger) (stack : List Key) :
    runAll c plans (l.within stack) = (runAll c plans l).within stack := by
  rw [runAll, allEntries_within, Ledger.within_enterAll]
  rfl

theorem runAll_units (uid : GeneratedUnit → String) (role : Role) (units : List GeneratedUnit)
    (l : Ledger) :
    runAll c (units.map fun unit => .unit (uid unit) role unit) l =
      units.foldl (fun l unit => l.pushOnce (unitKey (uid unit) role unit) unit) l := by
  induction units generalizing l with
  | nil => rfl
  | cons unit rest ih => simp [ih, run_unit]

end Plan

variable (c : Context)

theorem begin_completed {key : Key} {l : Ledger} (done : l.isCompleted key = true) :
    (begin key).runFrom l = (.ok false, l) := by
  rw [begin, Emitter.runFrom_get_bind, if_pos done]
  rfl

theorem begin_fresh {key : Key} {l : Ledger} (undone : ¬ l.isCompleted key = true)
    (fresh : key ∉ l.inProgress) :
    (begin key).runFrom l = (.ok true, l.within (l.inProgress ++ [key])) := by
  rw [begin, Emitter.runFrom_get_bind, if_neg undone,
    if_neg (by simpa using fresh)]
  rfl

theorem emitModel_eq (o : Outline) (nested : Emitter Unit) (plans : List Plan) (l : Ledger)
    (above : l.Above c o.scope)
    (inner : ∀ l : Ledger, l.Around c o.scope o.name →
      nested.runFrom l = (.ok (), Plan.runAll c plans l)) :
    (emitModel c o nested).runFrom l = (.ok (), Plan.run c (.model o plans) l) := by
  have fresh : o.key c ∉ l.inProgress := fun member =>
    Nat.lt_irrefl _ (above _ member o.name)
  by_cases done : l.isCompleted (o.key c) = true
  · rw [emitModel, Emitter.runFrom_bind (begin_completed done), Plan.run_model_done c done]
    rfl
  · let opening := unnamed o.label o.name (o.key c).qualified
    let stack := l.inProgress ++ [o.key c]
    have around : ((l.within stack).report opening).Around c o.scope o.name := by
      intro key member
      rcases List.mem_append.mp member with member | member
      · exact (above key member o.name).le
      · rw [List.mem_singleton.mp member]
        exact le_refl _
    have emitted : (emitModel c o nested).runFrom l = (.ok (),
        (((Plan.runAll c plans ((l.within stack).report opening)).report (o.declared c).2).push
          (o.key c) (o.unit c)).complete (o.key c)) := by
      rw [emitModel, Emitter.runFrom_bind (begin_fresh done fresh), if_pos rfl,
        Emitter.runFrom_modify_bind, Emitter.runFrom_bind (inner _ around)]
      rfl
    rw [emitted, Plan.run_model c done]
    simp only [Ledger.within_report, Plan.runAll_within, Ledger.within_push]
    rw [Ledger.complete_within _ _ (by simp) fresh]

theorem mem_blockSet {c : Context} {scope : Scope} {wrapper : String} {tags : List VariantTag}
    {unit : GeneratedUnit} (member : unit ∈ blockSet c scope wrapper tags) :
    unit.namespacePath = c.namespacePath scope ∧ unit.directoryPath = scope ∧
      unit.imports = [] := by
  simp only [blockSet, List.mem_cons, List.not_mem_nil, or_false] at member
  rcases member with rfl | rfl | rfl <;> exact ⟨rfl, rfl, rfl⟩

theorem blockSet_key (uid : String) {scope : Scope} {wrapper : String} {tags : List VariantTag}
    {unit : GeneratedUnit} (member : unit ∈ blockSet c scope wrapper tags) :
    c.key uid .blockSet unit.name scope = unitKey uid .blockSet unit := by
  obtain ⟨namespaced, rfl, _⟩ := mem_blockSet member
  rw [unitKey, qualifiedName_eq c namespaced]
  rfl

theorem pushBlockSet_eq (b : BlockField) (uid : String) (variants : List Definition) (l : Ledger) :
    pushBlockSet c uid b.scope b.wrapper (b.tags [] (.reserving []) variants) l =
      Plan.runAll c (b.setPlans c uid variants) l := by
  rw [BlockField.setPlans, Plan.runAll_units c (fun _ => uid), pushBlockSet]
  apply List.foldl_ext
  intro l unit member
  rw [blockSet_key c uid member]

section equations

variable {field : Field} {scope : Scope} {owner : String}

def Outline.emit (o : Outline) : Emitter Unit := emitModel c o (emitNested c o.scope o.name o.fields)

theorem emitField_blocks (kind : field.kind = .blocks) {b : BlockField}
    (own : b = .ofField c scope owner field) :
    emitField c scope owner .blocks field =
      (do
        modify (·.report (unnamed field.label b.wrapper b.subject))
        let tags ← emitVariants c b [] (.reserving []) field.variants
        modify (pushBlockSet c field.uid b.scope b.wrapper tags)) := by
  subst own
  cases field
  cases kind
  rw [emitField]
  rfl

theorem emitField_group (kind : field.kind = .group) :
    emitField c scope owner .group field =
      (Outline.ofGroup c (nestedScope scope owner .group) owner field).emit c := by
  cases field
  cases kind
  rw [emitField]
  rfl

theorem emitField_other {role : NestedRole} (kind : field.kind ≠ role.kind) :
    emitField c scope owner role field = pure () := by
  cases field
  cases role <;> rw [emitField] <;> simp_all [NestedRole.kind]

theorem fieldPlans_blocks (kind : field.kind = .blocks) :
    fieldPlans c scope owner .blocks field = (BlockField.ofField c scope owner field).plans c field := by
  cases field
  cases kind
  rw [fieldPlans]
  rfl

theorem fieldPlans_group (kind : field.kind = .group) :
    fieldPlans c scope owner .group field =
      [(Outline.ofGroup c (nestedScope scope owner .group) owner field).plan c] := by
  cases field
  cases kind
  rw [fieldPlans]
  rfl

theorem fieldPlans_other {role : NestedRole} (kind : field.kind ≠ role.kind) :
    fieldPlans c scope owner role field = [] := by
  cases field
  cases role <;> rw [fieldPlans] <;> simp_all [NestedRole.kind]

variable {variant : Definition} {wrapper globalField : String}

theorem emitVariant_some (origin : variant.referenceTo = some globalField) :
    emitVariant c scope wrapper variant =
      emitGlobalFieldVariant c scope wrapper variant globalField := by
  cases variant
  cases origin
  rw [emitVariant]

theorem emitVariant_none (origin : variant.referenceTo = none) :
    emitVariant c scope wrapper variant = (Outline.ofVariant c scope wrapper variant).emit c := by
  cases variant
  cases origin
  rw [emitVariant]
  rfl

theorem variantPlan_some (origin : variant.referenceTo = some globalField) :
    variantPlan c scope wrapper variant =
      .model (Outline.ofGlobalField c scope wrapper variant (c.registry.lookup globalField))
        [.note (if (c.registry.lookup globalField).isSome then []
          else [unregistered wrapper variant.uid globalField])] := by
  cases variant
  cases origin
  rw [variantPlan]

theorem variantPlan_none (origin : variant.referenceTo = none) :
    variantPlan c scope wrapper variant = (Outline.ofVariant c scope wrapper variant).plan c := by
  cases variant
  cases origin
  rw [variantPlan]
  rfl

end equations

def Planned (fields : List Field) : Prop :=
  ∀ (scope : Scope) (owner : String) (l : Ledger), l.Around c scope owner →
    (emitNested c scope owner fields).runFrom l =
      (.ok (), Plan.runAll c (nestedPlans c scope owner fields) l)

variable {c}

theorem Outline.emit_eq {o : Outline} (inner : Planned c o.fields) (l : Ledger)
    (above : l.Above c o.scope) : (o.emit c).runFrom l = (.ok (), Plan.run c (o.plan c) l) :=
  emitModel_eq c o _ _ l above (inner o.scope o.name)

theorem emitGlobalFieldVariant_eq (scope : Scope) (wrapper : String) (variant : Definition)
    (globalField : String) (l : Ledger) (above : l.Above c scope) :
    (emitGlobalFieldVariant c scope wrapper variant globalField).runFrom l =
      (.ok (), Plan.run c
        (.model (Outline.ofGlobalField c scope wrapper variant (c.registry.lookup globalField))
          [.note (if (c.registry.lookup globalField).isSome then []
            else [unregistered wrapper variant.uid globalField])]) l) := by
  let o := Outline.ofGlobalField c scope wrapper variant (c.registry.lookup globalField)
  have placed : o.scope = scope := by
    unfold o Outline.ofGlobalField
    split <;> rfl
  rw [emitGlobalFieldVariant, emitModel_eq c o _ _ l (placed ▸ above)]
  intro l around
  rfl

theorem emitVariant_eq {variant : Definition} (inner : Planned c variant.fields) (scope : Scope)
    (wrapper : String) (l : Ledger) (above : l.Above c scope) :
    (emitVariant c scope wrapper variant).runFrom l =
      (.ok (), Plan.run c (variantPlan c scope wrapper variant) l) := by
  cases origin : variant.referenceTo with
  | some globalField =>
    rw [emitVariant_some c origin, variantPlan_some c origin]
    exact emitGlobalFieldVariant_eq scope wrapper variant globalField l above
  | none =>
    rw [emitVariant_none c origin, variantPlan_none c origin]
    exact Outline.emit_eq inner l above

theorem emitVariants_eq (b : BlockField) (variants : List Definition)
    (inner : ∀ variant ∈ variants, Planned c variant.fields) (seen : List String)
    (names : MemberNames) (l : Ledger) (above : l.Above c b.scope) :
    (emitVariants c b seen names variants).runFrom l =
      (.ok (b.tags seen names variants),
        Plan.runAll c (variantsPlans c b seen names variants) l) := by
  induction variants generalizing seen names l with
  | nil => rfl
  | cons variant rest ih =>
    have rest_inner := fun other member => inner other (List.mem_cons_of_mem variant member)
    by_cases known : seen.contains variant.uid = true
    · rw [emitVariants, if_pos known, BlockField.tags, if_pos known, variantsPlans, if_pos known,
        Emitter.runFrom_modify_bind,
        ih rest_inner seen names (l.report [repeated b.subject variant.uid]) above]
      rfl
    · have first := emitVariant_eq (inner variant List.mem_cons_self) b.scope b.wrapper l above
      have later : ((Plan.run c (variantPlan c b.scope b.wrapper variant) l).report
          (b.tag names variant).2.2).Above c b.scope := by
        simpa [Ledger.Above, Plan.run] using above
      rw [emitVariants, if_neg known, BlockField.tags, if_neg known, variantsPlans, if_neg known,
        Emitter.runFrom_bind first, Emitter.runFrom_modify_bind,
        Emitter.runFrom_bind (ih rest_inner _ _ _ later), Plan.runAll_cons, Plan.runAll_cons,
        Plan.run_note]
      rfl

theorem emitField_eq {field : Field} (inner : Planned c field.nested)
    (variants : ∀ variant ∈ field.variants, Planned c variant.fields) (scope : Scope)
    (owner : String) (role : NestedRole) (l : Ledger) (around : l.Around c scope owner) :
    (emitField c scope owner role field).runFrom l =
      (.ok (), Plan.runAll c (fieldPlans c scope owner role field) l) := by
  by_cases nests : field.kind = role.kind
  · cases role with
    | blocks =>
      obtain ⟨b, own⟩ : ∃ b, b = BlockField.ofField c scope owner field := ⟨_, rfl⟩
      have above : l.Above c b.scope := own ▸ around.above .blocks
      have tagged := emitVariants_eq b field.variants variants [] (.reserving []) _
        (above.report (unnamed field.label b.wrapper b.subject))
      rw [emitField_blocks c nests own, fieldPlans_blocks c nests, ← own, BlockField.plans,
        Emitter.runFrom_modify_bind, Emitter.runFrom_bind tagged, Plan.runAll_cons,
        Plan.runAll_append, Plan.run_note, ← pushBlockSet_eq]
      rfl
    | group =>
      rw [emitField_group c nests, fieldPlans_group c nests, Plan.runAll_cons, Plan.runAll_nil]
      exact Outline.emit_eq inner l (around.above .group)
  · rw [emitField_other c nests, fieldPlans_other c nests]
    rfl

theorem emitFields_eq (fields : List Field)
    (inner : ∀ field ∈ fields,
      Planned c field.nested ∧ ∀ variant ∈ field.variants, Planned c variant.fields)
    (scope : Scope) (owner : String) (role : NestedRole) (l : Ledger)
    (around : l.Around c scope owner) :
    (emitFields c scope owner role fields).runFrom l =
      (.ok (), Plan.runAll c (fieldsPlans c scope owner role fields) l) := by
  induction fields generalizing l with
  | nil => rfl
  | cons field rest ih =>
    obtain ⟨nested, variants⟩ := inner field List.mem_cons_self
    have later : (Plan.runAll c (fieldPlans c scope owner role field) l).Around c scope owner := by
      simpa [Ledger.Around] using around
    rw [emitFields, Emitter.runFrom_bind (emitField_eq nested variants scope owner role l around),
      fieldsPlans, Plan.runAll_append]
    exact ih (fun other member => inner other (List.mem_cons_of_mem _ member)) _ later

variable (c)

theorem planned (fields : List Field) : Planned c fields := by
  induction fields using fields_induction with
  | step fields inner =>
    intro scope owner l around
    have later : (Plan.runAll c (fieldsPlans c scope owner .blocks fields) l).Around c scope
        owner := by
      simpa [Ledger.Around] using around
    rw [emitNested, Emitter.runFrom_bind (emitFields_eq fields inner scope owner .blocks l around),
      nestedPlans, Plan.runAll_append]
    exact emitFields_eq fields inner scope owner .group _ later

theorem emitDefinition_eq (d : Definition) {l : Ledger} (idle : l.inProgress = []) :
    (emitDefinition c d).runFrom l = (.ok (), Plan.run c (definitionPlan c d) l) := by
  apply Outline.emit_eq (planned c d.fields)
  simp [Ledger.Above, idle]

theorem emitDefinitions_eq (definitions : List Definition) {l : Ledger} (idle : l.inProgress = []) :
    (emitDefinitions c definitions).runFrom l =
      (.ok (), Plan.runAll c (definitions.map (definitionPlan c)) l) := by
  induction definitions generalizing l with
  | nil => rfl
  | cons d rest ih =>
    have later : (Plan.run c (definitionPlan c d) l).inProgress = [] := by simp [Plan.run, idle]
    rw [emitDefinitions, Emitter.runFrom_bind (emitDefinition_eq c d idle), List.map_cons,
      Plan.runAll_cons]
    exact ih later

theorem mem_supportUnits {registry : Registry} {path directory : List String}
    {unit : GeneratedUnit} (member : unit ∈ supportUnits registry path directory) :
    unit.namespacePath = path ∧ unit.directoryPath = directory ∧ unit.imports = [] := by
  simp only [supportUnits, List.mem_cons, List.not_mem_nil, or_false] at member
  rcases member with rfl | rfl | rfl | rfl | rfl <;> exact ⟨rfl, rfl, rfl⟩

theorem emitSupport_eq (l : Ledger) : emitSupport c l = Plan.runAll c (supportPlans c) l := by
  rw [supportPlans, Plan.runAll_units c GeneratedUnit.name]
  rfl

-- Nothing is entered before the definition that is asked for has been found.
theorem Request.emit_refused {request : Request} {failure : GenerationFailure}
    (refused : request.target c = .error failure) (l : Ledger) :
    (request.emit c).runFrom l = (.error failure, l) := by
  rw [Request.emit, refused]
  rfl

theorem Request.emit_definition {request : Request} {d : Definition}
    (wanted : request.target c = .ok (some d)) {l : Ledger} (idle : l.inProgress = []) :
    (request.emit c).runFrom l =
      (.ok (some (definitionName d.title d.uid)), Plan.run c (definitionPlan c d) l) := by
  have found : (MonadExcept.ofExcept (.ok (some d)) : Emitter (Option Definition)).runFrom l =
      (.ok (some d), l) := rfl
  rw [Request.emit, wanted, Emitter.runFrom_bind found,
    Emitter.runFrom_bind (emitDefinition_eq c d idle)]
  rfl

theorem answer_eq (request : Request) {l : Ledger} (idle : l.inProgress = []) :
    request.answer c l = (request.reply c, Plan.runAll c (request.plans c) l) := by
  unfold Request.answer Request.reply
  cases request with
  | definition d =>
    have wanted : (Request.definition d).target c = .ok (some d) := rfl
    rw [Request.emit_definition c wanted idle, wanted]
    simp [Request.plans, Except.map]
  | registered uid =>
    cases found : c.registry.lookup uid with
    | none =>
      have refused : (Request.registered uid).target c = .error (.unknownContentType uid) := by
        simp [Request.target, found]
      rw [Request.emit_refused c refused l, refused]
      simp [Request.plans, found, Except.map]
    | some d =>
      have wanted : (Request.registered uid).target c = .ok (some d) := by
        simp [Request.target, found]
      rw [Request.emit_definition c wanted idle, wanted]
      simp [Request.plans, found, Except.map]
  | support => exact congrArg (Prod.mk _) (emitSupport_eq c l)

theorem answerAll_eq (requests : List Request) {l : Ledger} (idle : l.inProgress = []) :
    answerAll c requests l =
      (requests.map (Request.reply c), Plan.runAll c (requests.flatMap (Request.plans c)) l) := by
  induction requests generalizing l with
  | nil => rfl
  | cons request rest ih =>
    have later : (Plan.runAll c (request.plans c) l).inProgress = [] := by simp [idle]
    simp only [answerAll, answer_eq c request idle, ih later, List.map_cons, List.flatMap_cons,
      Plan.runAll_append]

theorem Ledger.output_units (l : Ledger) : l.output.units = l.units.toList := rfl

theorem Ledger.output_diagnostics (l : Ledger) :
    l.output.diagnostics = l.diagnostics.toList := rfl

def finished : Ledger := Plan.runAll c (generationPlans c) {}

theorem emitAll_eq : (emitAll c).runFrom {} = (.ok (), finished c) := by
  unfold emitAll finished generationPlans
  rw [Plan.runAll_append]
  split
  · rw [Emitter.runFrom_modify_bind, emitSupport_eq]
    exact emitDefinitions_eq c c.registry.all (by simp)
  · exact emitDefinitions_eq c c.registry.all rfl

theorem generate_eq (registry : Registry) (options : Options) :
    generate registry options = .ok (finished ⟨registry, options⟩).output := by
  rw [generate, emitAll_eq]
  rfl

end ContentModels.Emission
