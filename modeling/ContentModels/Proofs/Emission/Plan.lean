import ContentModels.Emission.Walk
import ContentModels.Proofs.Emission.Ledger
import ContentModels.Proofs.Emission.Qualified

set_option autoImplicit false

namespace ContentModels.Emission

inductive Plan where
  | note (diagnostics : List Diagnostic)
  | unit (uid : String) (role : Role) (unit : GeneratedUnit)
  | model (o : Outline) (nested : List Plan)

theorem qualifiedName_eq (c : Context) {unit : GeneratedUnit}
    (placed : unit.namespacePath = c.namespacePath unit.directoryPath) :
    unit.qualifiedName = c.qualified unit.directoryPath unit.name := by
  rw [GeneratedUnit.qualifiedName, GeneratedUnit.namespaceName, placed, Context.qualified_eq]
  simp [Context.namespacePath, Context.namespaceName]

namespace Outline

@[simp] theorem unit_qualifiedName (c : Context) (o : Outline) :
    (o.unit c).qualifiedName = c.qualified o.scope o.name :=
  qualifiedName_eq c rfl

@[simp] theorem key_qualified (c : Context) (o : Outline) :
    (o.key c).qualified = c.qualified o.scope o.name := rfl

theorem unitKey_unit (c : Context) (o : Outline) : unitKey o.uid o.role (o.unit c) = o.key c := by
  simp only [unitKey, unit_qualifiedName]
  rfl

end Outline

namespace Plan

variable (c : Context)

def unit? : Plan → Option GeneratedUnit
  | .note _ => none
  | .unit _ _ u => some u
  | .model o _ => some (o.unit c)

def key? : Plan → Option Key
  | .note _ => none
  | .unit uid role u => some (unitKey uid role u)
  | .model o _ => some (o.key c)

mutual

def entries : Plan → Ledger → List Entry
  | .note diagnostics, _ => [.note diagnostics]
  | .unit uid role u, l =>
    if l.isCompleted (unitKey uid role u) then [.skipped u] else [.unit uid role u]
  | .model o nested, l =>
    if l.isCompleted (o.key c) then [.skipped (o.unit c)]
    else
      let opening := unnamed o.label o.name (o.key c).qualified
      .note opening :: (allEntries nested (l.report opening) ++
        [.note (o.declared c).2, .unit o.uid o.role (o.unit c)])

def allEntries : List Plan → Ledger → List Entry
  | [], _ => []
  | plan :: rest, l =>
    entries plan l ++ allEntries rest (l.enterAll (entries plan l))

end

def run (plan : Plan) (l : Ledger) : Ledger := l.enterAll (plan.entries c l)

def runAll (plans : List Plan) (l : Ledger) : Ledger := l.enterAll (allEntries c plans l)

@[simp] theorem run_note (diagnostics : List Diagnostic) (l : Ledger) :
    run c (.note diagnostics) l = l.report diagnostics := rfl

theorem run_unit (uid : String) (role : Role) (u : GeneratedUnit) (l : Ledger) :
    run c (.unit uid role u) l = l.pushOnce (unitKey uid role u) u := by
  rw [Ledger.pushOnce_eq, run, entries]
  split <;> rfl

theorem run_model_done {o : Outline} {l : Ledger} (done : l.isCompleted (o.key c) = true)
    (nested : List Plan) : run c (.model o nested) l = l := by
  simp [run, entries, done, Ledger.enter]

theorem run_model {o : Outline} {l : Ledger} (undone : ¬ l.isCompleted (o.key c) = true)
    (nested : List Plan) :
    run c (.model o nested) l =
      (((runAll c nested (l.report (unnamed o.label o.name (o.key c).qualified))).report
        (o.declared c).2).push (o.key c) (o.unit c)).settle (o.key c) := by
  simp [run, runAll, entries, undone, Ledger.enter, Outline.unitKey_unit]

@[simp] theorem runAll_nil (l : Ledger) : runAll c [] l = l := rfl

@[simp] theorem runAll_cons (plan : Plan) (rest : List Plan) (l : Ledger) :
    runAll c (plan :: rest) l = runAll c rest (run c plan l) := by
  simp [run, runAll, allEntries]

theorem allEntries_append (first rest : List Plan) (l : Ledger) :
    allEntries c (first ++ rest) l = allEntries c first l ++ allEntries c rest (runAll c first l) := by
  induction first generalizing l with
  | nil => rfl
  | cons plan first ih => simp [allEntries, ih, run]

@[simp] theorem runAll_append (first rest : List Plan) (l : Ledger) :
    runAll c (first ++ rest) l = runAll c rest (runAll c first l) := by
  rw [runAll, allEntries_append, Ledger.enterAll_append]
  rfl

theorem runAll_extends (plans : List Plan) (l : Ledger) : l.Extends (runAll c plans l) :=
  l.enterAll_extends _

@[simp] theorem runAll_inProgress (plans : List Plan) (l : Ledger) :
    (runAll c plans l).inProgress = l.inProgress :=
  l.enterAll_inProgress _

theorem run_model_extends {o : Outline} {l : Ledger} (undone : ¬ l.isCompleted (o.key c) = true)
    (nested : List Plan) :
    (runAll c nested (l.report (unnamed o.label o.name (o.key c).qualified))).Extends
        (run c (.model o nested) l) ∧
      (o.declared c).2 ⊆ (run c (.model o nested) l).diagnostics.toList := by
  rw [run_model c undone]
  have last := (Ledger.push_extends
    ((runAll c nested (l.report (unnamed o.label o.name (o.key c).qualified))).report
      (o.declared c).2) (o.key c) (o.unit c)).trans (Ledger.settle_extends _ (o.key c))
  exact ⟨(Ledger.report_extends _ _).trans last,
    List.Subset.trans (by simp) last.diagnostics.subset⟩

theorem runAll_consistent (plans : List Plan) {l : Ledger} (consistent : l.Consistent) :
    (runAll c plans l).Consistent :=
  Ledger.enterAll_consistent consistent _

end Plan

namespace Ledger

variable (c : Context)

def Covers (l : Ledger) : Plan → Prop
  | .note diagnostics => diagnostics ⊆ l.diagnostics.toList
  | .unit uid role u => l.isCompleted (unitKey uid role u) = true
  | .model o _ => l.isCompleted (o.key c) = true

def CoversNested (l : Ledger) : Plan → Prop
  | .model o nested => (∀ plan ∈ nested, l.Covers c plan) ∧ (o.declared c).2 ⊆ l.diagnostics.toList
  | _ => True

variable {c}

theorem Covers.mono {l later : Ledger} {plan : Plan} (covered : l.Covers c plan)
    (later_extends : l.Extends later) : later.Covers c plan := by
  cases plan with
  | note diagnostics => exact List.Subset.trans covered later_extends.diagnostics.subset
  | unit uid role u => exact later_extends.completed _ covered
  | model o nested => exact later_extends.completed _ covered

theorem CoversNested.mono {l later : Ledger} {plan : Plan} (covered : l.CoversNested c plan)
    (later_extends : l.Extends later) : later.CoversNested c plan := by
  cases plan with
  | note => trivial
  | unit => trivial
  | model o nested =>
    exact ⟨fun plan member => (covered.1 plan member).mono later_extends,
      List.Subset.trans covered.2 later_extends.diagnostics.subset⟩

end Ledger

namespace Plan

variable (c : Context)

theorem run_covers (plan : Plan) (l : Ledger) : (run c plan l).Covers c plan := by
  cases plan with
  | note diagnostics => simp [Ledger.Covers]
  | unit uid role u =>
    rw [run_unit, Ledger.pushOnce_eq]
    split
    next done => exact done
    next => exact (Ledger.settle_isCompleted _ _ _).mpr (.inl rfl)
  | model o nested =>
    by_cases done : l.isCompleted (o.key c) = true
    · rw [run_model_done c done]
      exact done
    · rw [run_model c done]
      exact (Ledger.settle_isCompleted _ _ _).mpr (.inl rfl)

theorem runAll_covers (plans : List Plan) (l : Ledger) :
    ∀ plan ∈ plans, (runAll c plans l).Covers c plan := by
  induction plans generalizing l with
  | nil => simp
  | cons first rest ih =>
    intro plan member
    rw [runAll_cons]
    rcases List.mem_cons.mp member with rfl | member
    · exact (run_covers c plan l).mono (runAll_extends c rest _)
    · exact ih _ plan member

end Plan

-- A plan that has been run, among plans that have all been run.
inductive Origin (c : Context) (l : Ledger) (target : Plan) : List Plan → Prop
  | here {plans : List Plan} (member : target ∈ plans) (nested : l.CoversNested c target)
      (covered : ∀ other ∈ plans, l.Covers c other) : Origin c l target plans
  | deeper {plans nested : List Plan} {o : Outline} (member : Plan.model o nested ∈ plans)
      (origin : Origin c l target nested) : Origin c l target plans

theorem Origin.mono {c : Context} {l later : Ledger} {target : Plan} {plans : List Plan}
    (origin : Origin c l target plans) (later_extends : l.Extends later) :
    Origin c later target plans := by
  induction origin with
  | here member nested covered =>
    exact .here member (nested.mono later_extends)
      fun other among => (covered other among).mono later_extends
  | deeper member _ ih => exact .deeper member ih

theorem Origin.widen {c : Context} {l : Ledger} {target : Plan} {plans more : List Plan}
    (origin : Origin c l target plans) (among : plans ⊆ more)
    (covered : ∀ other ∈ more, l.Covers c other) : Origin c l target more := by
  cases origin with
  | here member nested _ => exact .here (among member) nested covered
  | deeper member origin => exact .deeper (among member) origin

theorem Origin.covers {c : Context} {l : Ledger} {target : Plan} {plans : List Plan}
    (origin : Origin c l target plans) : l.Covers c target := by
  induction origin with
  | here member _ covered => exact covered _ member
  | deeper _ _ ih => exact ih

structure Traced (c : Context) (l later : Ledger) (plans : List Plan) : Prop where
  units : ∀ u ∈ later.units.toList,
    u ∈ l.units.toList ∨ ∃ target, target.unit? c = some u ∧ Origin c later target plans
  completed : ∀ key, later.isCompleted key = true →
    l.isCompleted key = true ∨ ∃ target, target.key? c = some key ∧ Origin c later target plans

theorem Traced.refl (c : Context) (l : Ledger) (plans : List Plan) : Traced c l l plans where
  units _ member := .inl member
  completed _ done := .inl done

namespace Plan

variable (c : Context)

theorem run_unit_traced (uid : String) (role : Role) (own : GeneratedUnit) (l : Ledger) :
    Traced c l (run c (.unit uid role own) l) [.unit uid role own] := by
  have covered := run_covers c (.unit uid role own) l
  have here : Origin c (run c (.unit uid role own) l) (.unit uid role own) [.unit uid role own] :=
    .here (List.mem_singleton_self _) trivial (by simpa using covered)
  by_cases done : l.isCompleted (unitKey uid role own) = true
  · have same : run c (.unit uid role own) l = l := by rw [run_unit, Ledger.pushOnce_eq, if_pos done]
    rw [same]
    exact .refl c l _
  · have entered : run c (.unit uid role own) l = l.enter (.unit uid role own) := by
      rw [run_unit, Ledger.pushOnce_eq, if_neg done]
    constructor
    · intro u member
      rw [entered, Ledger.enter, Ledger.settle_units] at member
      rcases Ledger.mem_push member with earlier | rfl
      · exact .inl earlier
      · exact .inr ⟨_, rfl, here⟩
    · intro key settled
      rw [entered, Ledger.enter, Ledger.settle_isCompleted, Ledger.push_isCompleted] at settled
      rcases settled with rfl | earlier
      · exact .inr ⟨_, rfl, here⟩
      · exact .inl earlier

theorem run_model_traced {o : Outline} {nested : List Plan} {l : Ledger}
    (inner : Traced c (l.report (unnamed o.label o.name (o.key c).qualified))
      (runAll c nested (l.report (unnamed o.label o.name (o.key c).qualified))) nested) :
    Traced c l (run c (.model o nested) l) [.model o nested] := by
  have covered := run_covers c (.model o nested) l
  by_cases done : l.isCompleted (o.key c) = true
  · rw [run_model_done c done]
    exact .refl c l _
  · have later := run_model_extends c done nested
    have here : Origin c (run c (.model o nested) l) (.model o nested) [.model o nested] :=
      .here (List.mem_singleton_self _)
        ⟨fun plan among => (runAll_covers c nested _ plan among).mono later.1, later.2⟩
        (by simpa using covered)
    constructor
    · intro u member
      rw [run_model c done, Ledger.settle_units] at member
      rcases Ledger.mem_push member with earlier | rfl
      · rcases inner.units u earlier with earlier | ⟨target, emits, origin⟩
        · exact .inl earlier
        · exact .inr ⟨target, emits, .deeper (List.mem_singleton_self _) (origin.mono later.1)⟩
      · exact .inr ⟨_, rfl, here⟩
    · intro key settled
      rw [run_model c done, Ledger.settle_isCompleted, Ledger.push_isCompleted,
        Ledger.report_isCompleted] at settled
      rcases settled with rfl | earlier
      · exact .inr ⟨_, rfl, here⟩
      · rcases inner.completed key earlier with earlier | ⟨target, keyed, origin⟩
        · exact .inl earlier
        · exact .inr ⟨target, keyed, .deeper (List.mem_singleton_self _) (origin.mono later.1)⟩

theorem runAll_cons_traced {plan : Plan} {rest : List Plan} {l : Ledger}
    (first : Traced c l (run c plan l) [plan])
    (others : Traced c (run c plan l) (runAll c rest (run c plan l)) rest) :
    Traced c l (runAll c (plan :: rest) l) (plan :: rest) := by
  have covered := runAll_covers c (plan :: rest) l
  rw [runAll_cons] at covered ⊢
  have before {target : Plan} (origin : Origin c (run c plan l) target [plan]) :
      Origin c (runAll c rest (run c plan l)) target (plan :: rest) :=
    (origin.mono (runAll_extends c rest _)).widen (by simp) covered
  have after {target : Plan} (origin : Origin c (runAll c rest (run c plan l)) target rest) :
      Origin c (runAll c rest (run c plan l)) target (plan :: rest) :=
    origin.widen (by simp) covered
  constructor
  · intro u member
    rcases others.units u member with earlier | ⟨target, emits, origin⟩
    · exact (first.units u earlier).imp_right fun ⟨target, emits, origin⟩ =>
        ⟨target, emits, before origin⟩
    · exact .inr ⟨target, emits, after origin⟩
  · intro key done
    rcases others.completed key done with earlier | ⟨target, keyed, origin⟩
    · exact (first.completed key earlier).imp_right fun ⟨target, keyed, origin⟩ =>
        ⟨target, keyed, before origin⟩
    · exact .inr ⟨target, keyed, after origin⟩

mutual

theorem run_traced (plan : Plan) (l : Ledger) : Traced c l (run c plan l) [plan] := by
  match plan with
  | .note diagnostics => exact ⟨fun u member => .inl member, fun key done => .inl done⟩
  | .unit uid role own => exact run_unit_traced c uid role own l
  | .model o nested => exact run_model_traced c (runAll_traced nested _)

theorem runAll_traced (plans : List Plan) (l : Ledger) : Traced c l (runAll c plans l) plans := by
  match plans with
  | [] => exact .refl c l []
  | plan :: rest => exact runAll_cons_traced c (run_traced plan l) (runAll_traced rest _)

end

end Plan

end ContentModels.Emission
