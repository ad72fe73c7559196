import ContentModels.Proofs.Emission.Extent

set_option autoImplicit false

namespace ContentModels.Emission

structure Ledger.Alike (among : String → Prop) (l other : Ledger) : Prop where
  claimed : ∀ name, among name → other.claimed[name]? = l.claimed[name]?
  completed : ∀ name, among name → other.completedAs name = l.completedAs name

structure Ledger.Adds (l later : Ledger) (units : List GeneratedUnit)
    (diagnostics : List Diagnostic) : Prop where
  units : later.units.toList = l.units.toList ++ units
  diagnostics : later.diagnostics.toList = l.diagnostics.toList ++ diagnostics

-- Whether a step depends on nothing but given qualified names, and changes nothing else.
structure Local (among : String → Prop) (step : Ledger → Ledger) : Prop where
  frame : ∀ l : Ledger, l.Alike (fun name => ¬ among name) (step l)
  agree : ∀ {l other : Ledger}, l.Alike among other →
    (step l).Alike among (step other) ∧
      ∃ units diagnostics,
        l.Adds (step l) units diagnostics ∧ other.Adds (step other) units diagnostics

namespace Ledger

variable {among : String → Prop} {l other last : Ledger}

theorem Alike.refl (l : Ledger) : l.Alike among l := ⟨fun _ _ => rfl, fun _ _ => rfl⟩

theorem Alike.trans (first : l.Alike among other) (second : other.Alike among last) :
    l.Alike among last where
  claimed name own := (second.claimed name own).trans (first.claimed name own)
  completed name own := (second.completed name own).trans (first.completed name own)

theorem Alike.mono {fewer : String → Prop} (alike : l.Alike among other)
    (within : ∀ name, fewer name → among name) : l.Alike fewer other where
  claimed name own := alike.claimed name (within name own)
  completed name own := alike.completed name (within name own)

theorem Alike.isCompleted (alike : l.Alike among other) {key : Key} (own : among key.qualified) :
    other.isCompleted key = l.isCompleted key := by
  rw [Ledger.isCompleted, alike.completed _ own, Ledger.isCompleted]

theorem Adds.refl (l : Ledger) : l.Adds l [] [] := ⟨by simp, by simp⟩

theorem Adds.trans {later : Ledger} {units more : List GeneratedUnit}
    {diagnostics further : List Diagnostic} (first : l.Adds later units diagnostics)
    (second : later.Adds last more further) :
    l.Adds last (units ++ more) (diagnostics ++ further) :=
  ⟨by rw [second.units, first.units, List.append_assoc],
    by rw [second.diagnostics, first.diagnostics, List.append_assoc]⟩

theorem report_adds (l : Ledger) (diagnostics : List Diagnostic) :
    l.Adds (l.report diagnostics) [] diagnostics := ⟨by simp [report], by simp⟩

end Ledger

namespace Local

variable {among : String → Prop}

theorem skip : Local among id where
  frame := Ledger.Alike.refl
  agree {l other} alike := ⟨alike, [], [], .refl l, .refl other⟩

theorem comp {first second : Ledger → Ledger} (inner : Local among first)
    (outer : Local among second) : Local among (fun l => second (first l)) where
  frame l := (inner.frame l).trans (outer.frame (first l))
  agree alike := by
    obtain ⟨between, _, _, here, there⟩ := inner.agree alike
    obtain ⟨after, _, _, here', there'⟩ := outer.agree between
    exact ⟨after, _, _, here.trans here', there.trans there'⟩

theorem unlessDone {step : Ledger → Ledger} (inner : Local among step) {key : Key}
    (own : among key.qualified) :
    Local among (fun l => if l.isCompleted key = true then l else step l) where
  frame l := by
    split
    · exact .refl l
    · exact inner.frame l
  agree alike := by
    rw [alike.isCompleted own]
    split
    · exact skip.agree alike
    · exact inner.agree alike

theorem report (diagnostics : List Diagnostic) : Local among (·.report diagnostics) where
  frame _ := ⟨fun _ _ => rfl, fun _ _ => rfl⟩
  agree {l other} alike :=
    ⟨⟨alike.claimed, alike.completed⟩, _, _, l.report_adds diagnostics,
      other.report_adds diagnostics⟩

theorem settle {key : Key} (own : among key.qualified) : Local among (·.settle key) := by
  -- what is done already is settled by doing nothing
  apply unlessDone _ own
  constructor
  · intro l
    refine ⟨fun _ _ => rfl, fun name foreign => ?_⟩
    have apart : key.qualified ≠ name := fun same => foreign (same ▸ own)
    simp [Ledger.completedAs, Std.TreeMap.getD_insert, apart]
  · intro l other alike
    refine ⟨⟨alike.claimed, fun name own' => ?_⟩, [], [], ⟨by simp, by simp⟩, ⟨by simp, by simp⟩⟩
    have same := alike.completed name own'
    have here := alike.completed _ own
    simp only [Ledger.completedAs] at same here ⊢
    simp only [Std.TreeMap.getD_insert, same, here]

theorem push {key : Key} {u : GeneratedUnit} (own : among u.qualifiedName) :
    Local among (·.push key u) where
  frame l := by
    rcases l.push_cases key u with ⟨_, pushed⟩ | ⟨_, pushed⟩ | ⟨_, _, pushed⟩ <;> rw [pushed]
    · refine ⟨fun name foreign => ?_, fun _ _ => rfl⟩
      have apart : u.qualifiedName ≠ name := fun same => foreign (same ▸ own)
      simp [Std.TreeMap.getElem?_insert, apart]
    · exact .refl l
    · exact (report _).frame l
  agree {l other} alike := by
    have claimed := alike.claimed _ own
    unfold Ledger.push
    rw [claimed]
    cases l.claimed[u.qualifiedName]? with
    | none =>
      refine ⟨⟨fun name own' => ?_, alike.completed⟩, [u], [], ⟨by simp, by simp⟩,
        ⟨by simp, by simp⟩⟩
      simp only [Std.TreeMap.getElem?_insert, alike.claimed name own']
    | some owner =>
      dsimp only
      split
      · exact skip.agree alike
      · exact (report _).agree alike

end Local

namespace Plan

variable (c : Context)

def Within (among : String → Prop) (plan : Plan) : Prop :=
  plan.Every fun target => ∀ key, target.key? c = some key → among key.qualified

def Apart (plan other : Plan) : Prop :=
  ∃ among : String → Prop, plan.Within c among ∧ other.Within c fun name => ¬ among name

variable {c} {among : String → Prop}

theorem runAll_local {plans : List Plan} (inner : ∀ plan ∈ plans, Local among (run c plan)) :
    Local among (runAll c plans) := by
  induction plans with
  | nil => exact .skip
  | cons plan rest ih =>
    have first := inner plan List.mem_cons_self
    have later := ih fun other member => inner other (List.mem_cons_of_mem plan member)
    have both : runAll c (plan :: rest) = fun l => runAll c rest (run c plan l) :=
      funext fun l => runAll_cons c plan rest l
    exact both ▸ first.comp later

theorem run_local {plan : Plan} (within : plan.Within c among) : Local among (run c plan) := by
  induction within with
  | note => exact .report _
  | @unit uid role u own =>
    have name : among (unitKey uid role u).qualified := own _ rfl
    have runs : run c (.unit uid role u) = fun l =>
        if l.isCompleted (unitKey uid role u) = true then l
        else (l.settle (unitKey uid role u)).push (unitKey uid role u) u :=
      funext fun l => run_unit c uid role u l
    exact runs ▸ ((Local.settle name).comp (.push name)).unlessDone name
  | @model o nested own _ ih =>
    have name : among (o.key c).qualified := own _ rfl
    have unitName : among (o.unit c).qualifiedName := by
      rw [Outline.unit_qualifiedName]
      exact name
    have runs : run c (.model o nested) = fun l =>
        if l.isCompleted (o.key c) = true then l
        else (((runAll c nested (l.report (unnamed o.label o.name (o.key c).qualified))).report
          (o.declared c).2).push (o.key c) (o.unit c)).settle (o.key c) := by
      funext l
      split
      next done => exact run_model_done c done nested
      next undone => exact run_model c undone nested
    rw [runs]
    exact ((((Local.report _).comp (runAll_local ih)).comp (.report _)).comp (.push unitName)).comp
      (.settle name) |>.unlessDone name

theorem Within.and {plan : Plan} {more : String → Prop} (first : plan.Within c among)
    (second : plan.Within c more) : plan.Within c fun name => among name ∧ more name := by
  induction first with
  | note => exact .note nofun
  | unit own =>
    cases second with
    | unit own' => exact .unit fun key keyed => ⟨own key keyed, own' key keyed⟩
  | model own _ ih =>
    cases second with
    | model own' inner' =>
      exact .model (fun key keyed => ⟨own key keyed, own' key keyed⟩)
        fun plan member => ih plan member (inner' plan member)

def alone (c : Context) (plan : Plan) : Ledger := run c plan {}

theorem alone_unit (uid : String) (role : Role) (u : GeneratedUnit) :
    (alone c (.unit uid role u)).units.toList = [u] ∧
      (alone c (.unit uid role u)).diagnostics.toList = [] := by
  simp [alone, run_unit, Ledger.pushOnce, Ledger.isCompleted, Ledger.completedAs, Ledger.push]

theorem run_adds {plan : Plan} (within : plan.Within c among) {l : Ledger}
    (fresh : Ledger.Alike among {} l) :
    l.Adds (run c plan l) (alone c plan).units.toList (alone c plan).diagnostics.toList := by
  obtain ⟨_, units, diagnostics, first, here⟩ := (run_local within).agree fresh
  have own : (alone c plan).units.toList = units := by simpa [alone] using first.units
  have said : (alone c plan).diagnostics.toList = diagnostics := by
    simpa [alone] using first.diagnostics
  rw [own, said]
  exact here

theorem runAll_adds {plans : List Plan} (apart : plans.Pairwise (Apart c)) {l : Ledger}
    (fresh : ∀ plan ∈ plans, ∃ among, plan.Within c among ∧ Ledger.Alike among {} l) :
    l.Adds (runAll c plans l) (plans.flatMap fun plan => (alone c plan).units.toList)
      (plans.flatMap fun plan => (alone c plan).diagnostics.toList) := by
  induction plans generalizing l with
  | nil => exact .refl l
  | cons plan rest ih =>
    obtain ⟨first, others⟩ := List.pairwise_cons.mp apart
    obtain ⟨among, within, known⟩ := fresh plan List.mem_cons_self
    rw [runAll_cons]
    refine (run_adds within known).trans (ih others fun other member => ?_)
    -- the names of a later plan that are none of this one are as they were
    obtain ⟨names, within', known'⟩ := fresh other (List.mem_cons_of_mem plan member)
    obtain ⟨own, mine, foreign⟩ := first other member
    have kept := (run_local mine).frame l
    exact ⟨_, within'.and foreign,
      (known'.mono fun _ both => both.1).trans (kept.mono fun _ both => both.2)⟩

end Plan

end ContentModels.Emission
