import Mathlib
import ContentModels.Emission.Ledger

set_option autoImplicit false

namespace ContentModels

theorem find?_of_nodup_map {α β : Type} [DecidableEq β] {f : α → β} {xs : List α} {x : α}
    (distinct : (xs.map f).Nodup) (member : x ∈ xs) : xs.find? (f · = f x) = some x := by
  cases found : xs.find? (f · = f x) with
  | none => simpa using List.find?_eq_none.mp found x member
  | some y =>
    have same : f y = f x := by simpa using List.find?_some found
    rw [List.inj_on_of_nodup_map distinct (List.mem_of_find?_eq_some found) member same]

namespace Emission

def unitKey (uid : String) (role : Role) (unit : GeneratedUnit) : Key :=
  ⟨uid, role, unit.qualifiedName⟩

inductive Entry where
  | note (diagnostics : List Diagnostic)
  | unit (uid : String) (role : Role) (unit : GeneratedUnit)
  | skipped (unit : GeneratedUnit)

def Entry.emitted? : Entry → Option GeneratedUnit
  | .note _ => none
  | .unit _ _ u => some u
  | .skipped u => some u

namespace Ledger

def enter (l : Ledger) : Entry → Ledger
  | .note diagnostics => l.report diagnostics
  | .unit uid role unit => (l.push (unitKey uid role unit) unit).settle (unitKey uid role unit)
  | .skipped _ => l

def enterAll (l : Ledger) (journal : List Entry) : Ledger := journal.foldl enter l

@[simp] theorem enterAll_nil (l : Ledger) : l.enterAll [] = l := rfl

@[simp] theorem enterAll_cons (l : Ledger) (entry : Entry) (rest : List Entry) :
    l.enterAll (entry :: rest) = (l.enter entry).enterAll rest := rfl

@[simp] theorem enterAll_append (l : Ledger) (first rest : List Entry) :
    l.enterAll (first ++ rest) = (l.enterAll first).enterAll rest :=
  List.foldl_append

@[simp] theorem report_isCompleted (l : Ledger) (diagnostics : List Diagnostic) (key : Key) :
    (l.report diagnostics).isCompleted key = l.isCompleted key := rfl

@[simp] theorem report_inProgress (l : Ledger) (diagnostics : List Diagnostic) :
    (l.report diagnostics).inProgress = l.inProgress := rfl

@[simp] theorem report_diagnostics (l : Ledger) (diagnostics : List Diagnostic) :
    (l.report diagnostics).diagnostics.toList = l.diagnostics.toList ++ diagnostics := by
  simp [report]

theorem settle_cases (l : Ledger) (key : Key) :
    l.settle key = { l with completed := (l.settle key).completed } := by
  unfold settle
  split <;> rfl

@[simp] theorem settle_units (l : Ledger) (key : Key) : (l.settle key).units = l.units := by
  rw [settle_cases]

@[simp] theorem settle_claimed (l : Ledger) (key : Key) : (l.settle key).claimed = l.claimed := by
  rw [settle_cases]

@[simp] theorem settle_diagnostics (l : Ledger) (key : Key) :
    (l.settle key).diagnostics = l.diagnostics := by
  rw [settle_cases]

@[simp] theorem settle_inProgress (l : Ledger) (key : Key) :
    (l.settle key).inProgress = l.inProgress := by
  rw [settle_cases]

theorem settle_isCompleted (l : Ledger) (key other : Key) :
    (l.settle key).isCompleted other = true ↔ other = key ∨ l.isCompleted other = true := by
  unfold settle
  by_cases done : l.isCompleted key = true
  · rw [if_pos done]
    constructor
    · exact .inr
    · rintro (rfl | settled)
      · exact done
      · exact settled
  · rw [if_neg done]
    by_cases same : key.qualified = other.qualified
    · simp [isCompleted, completedAs, same]
    · have different : other ≠ key := fun equal => same (equal ▸ rfl)
      simp [isCompleted, completedAs, Std.TreeMap.getD_insert, same, different]

theorem push_cases (l : Ledger) (key : Key) (unit : GeneratedUnit) :
    (l.claimed[unit.qualifiedName]? = none ∧
      l.push key unit =
        { l with
          claimed := l.claimed.insert unit.qualifiedName key
          units := l.units.push unit }) ∨
    (l.claimed[unit.qualifiedName]? = some key ∧ l.push key unit = l) ∨
    (∃ owner, l.claimed[unit.qualifiedName]? = some owner ∧
      l.push key unit = l.report [collision key owner unit.qualifiedName]) := by
  unfold push
  cases claimed : l.claimed[unit.qualifiedName]? with
  | none => exact .inl ⟨rfl, rfl⟩
  | some owner =>
    by_cases same : owner = key
    · exact .inr (.inl ⟨congrArg some same, if_pos same⟩)
    · exact .inr (.inr ⟨owner, rfl, if_neg same⟩)

theorem mem_push {l : Ledger} {key : Key} {unit other : GeneratedUnit}
    (member : other ∈ (l.push key unit).units.toList) : other ∈ l.units.toList ∨ other = unit := by
  rcases push_cases l key unit with ⟨_, pushed⟩ | ⟨_, pushed⟩ | ⟨_, _, pushed⟩
  all_goals
    rw [pushed] at member
    simp_all [report]

@[simp] theorem push_completed (l : Ledger) (key : Key) (unit : GeneratedUnit) :
    (l.push key unit).completed = l.completed := by
  rcases push_cases l key unit with ⟨_, pushed⟩ | ⟨_, pushed⟩ | ⟨_, _, pushed⟩
  all_goals simp only [pushed, report]

@[simp] theorem push_isCompleted (l : Ledger) (key other : Key) (unit : GeneratedUnit) :
    (l.push key unit).isCompleted other = l.isCompleted other := by
  simp only [isCompleted, completedAs, push_completed]

@[simp] theorem push_inProgress (l : Ledger) (key : Key) (unit : GeneratedUnit) :
    (l.push key unit).inProgress = l.inProgress := by
  rcases push_cases l key unit with ⟨_, pushed⟩ | ⟨_, pushed⟩ | ⟨_, _, pushed⟩
  all_goals simp only [pushed, report]

theorem settle_push (l : Ledger) (key : Key) (unit : GeneratedUnit) :
    (l.settle key).push key unit = (l.push key unit).settle key := by
  -- neither step looks at what the other one changes
  have same : (l.push key unit).isCompleted key = l.isCompleted key := push_isCompleted l key key unit
  unfold settle
  rw [same]
  split
  · rfl
  · have completed : (l.push key unit).completedAs key.qualified = l.completedAs key.qualified := by
      simp [completedAs]
    rw [completed, push_completed]
    unfold push
    dsimp only
    split
    · rfl
    · split <;> rfl

theorem pushOnce_eq (l : Ledger) (uid : String) (role : Role) (unit : GeneratedUnit) :
    l.pushOnce (unitKey uid role unit) unit =
      if l.isCompleted (unitKey uid role unit) then l else l.enter (.unit uid role unit) := by
  unfold pushOnce enter
  split
  · rfl
  · exact settle_push l _ unit

end Ledger

structure Ledger.Extends (l later : Ledger) : Prop where
  units : l.units.toList <+: later.units.toList
  diagnostics : l.diagnostics.toList <+: later.diagnostics.toList
  completed : ∀ key, l.isCompleted key = true → later.isCompleted key = true
  claimed : ∀ (name : String) (key : Key),
    l.claimed[name]? = some key → later.claimed[name]? = some key

namespace Ledger.Extends

theorem refl (l : Ledger) : l.Extends l :=
  ⟨List.prefix_rfl, List.prefix_rfl, fun _ done => done, fun _ _ claimed => claimed⟩

theorem trans {l later last : Ledger} (first : l.Extends later) (second : later.Extends last) :
    l.Extends last :=
  ⟨first.units.trans second.units, first.diagnostics.trans second.diagnostics,
    fun key done => second.completed key (first.completed key done),
    fun name key claimed => second.claimed name key (first.claimed name key claimed)⟩

end Ledger.Extends

namespace Ledger

theorem report_extends (l : Ledger) (diagnostics : List Diagnostic) :
    l.Extends (l.report diagnostics) :=
  ⟨List.prefix_rfl, by simp, fun _ done => done, fun _ _ claimed => claimed⟩

theorem settle_extends (l : Ledger) (key : Key) : l.Extends (l.settle key) :=
  ⟨by simp, by simp, fun other done => (settle_isCompleted l key other).mpr (.inr done), by simp⟩

theorem push_extends (l : Ledger) (key : Key) (unit : GeneratedUnit) :
    l.Extends (l.push key unit) := by
  rcases push_cases l key unit with ⟨free, pushed⟩ | ⟨_, pushed⟩ | ⟨_, _, pushed⟩ <;> rw [pushed]
  · refine ⟨by simp, List.prefix_rfl, fun _ done => done, fun name owner claimed => ?_⟩
    have other : unit.qualifiedName ≠ name := by
      rintro rfl
      simp [free] at claimed
    simp [Std.TreeMap.getElem?_insert, other, claimed]
  · exact .refl l
  · exact report_extends l _

theorem enter_extends (l : Ledger) (entry : Entry) : l.Extends (l.enter entry) := by
  cases entry with
  | note diagnostics => exact report_extends l diagnostics
  | unit uid role unit => exact (push_extends l _ unit).trans (settle_extends _ _)
  | skipped => exact .refl l

theorem enterAll_extends (l : Ledger) (journal : List Entry) : l.Extends (l.enterAll journal) := by
  induction journal generalizing l with
  | nil => exact .refl l
  | cons entry rest ih => exact (enter_extends l entry).trans (ih (l.enter entry))

@[simp] theorem enter_inProgress (l : Ledger) (entry : Entry) :
    (l.enter entry).inProgress = l.inProgress := by
  cases entry <;> simp [enter]

@[simp] theorem enterAll_inProgress (l : Ledger) (journal : List Entry) :
    (l.enterAll journal).inProgress = l.inProgress := by
  induction journal generalizing l with
  | nil => rfl
  | cons entry rest ih => simp [ih]

def Colliding (l : Ledger) : Prop := ∃ d ∈ l.diagnostics.toList, d.kind = .nameCollision

-- A key is done once its unit has the name or the loss of the name is reported.
structure Consistent (l : Ledger) : Prop where
  distinct : (l.units.toList.map GeneratedUnit.qualifiedName).Nodup
  claimed : ∀ name : String,
    (∃ key, l.claimed[name]? = some key) ↔ ∃ unit ∈ l.units.toList, unit.qualifiedName = name
  owned : ∀ (name : String) (key : Key), l.claimed[name]? = some key → key.qualified = name
  completed : ∀ key : Key, l.isCompleted key = true →
    ∃ owner, l.claimed[key.qualified]? = some owner ∧ (owner = key ∨ l.Colliding)

theorem empty_consistent : Consistent {} where
  distinct := List.nodup_nil
  claimed name := by simp
  owned name key claimed := by simp at claimed
  completed key done := by simp [isCompleted, completedAs] at done

theorem Colliding.mono {l later : Ledger} (colliding : l.Colliding) (extends_ : l.Extends later) :
    later.Colliding := by
  obtain ⟨d, member, kind⟩ := colliding
  exact ⟨d, extends_.diagnostics.subset member, kind⟩

theorem report_consistent {l : Ledger} (consistent : l.Consistent)
    (diagnostics : List Diagnostic) : (l.report diagnostics).Consistent where
  distinct := consistent.distinct
  claimed := consistent.claimed
  owned := consistent.owned
  completed key done := by
    obtain ⟨owner, claimed, kept⟩ := consistent.completed key done
    exact ⟨owner, claimed, kept.imp_right (·.mono (report_extends l diagnostics))⟩

theorem settle_consistent {l : Ledger} (consistent : l.Consistent) {key : Key}
    (kept : ∃ owner, l.claimed[key.qualified]? = some owner ∧ (owner = key ∨ l.Colliding)) :
    (l.settle key).Consistent where
  distinct := by simpa using consistent.distinct
  claimed := by simpa using consistent.claimed
  owned := by simpa using consistent.owned
  completed other done := by
    have same : (l.settle key).Colliding ↔ l.Colliding := by simp [Colliding]
    rw [settle_claimed, same]
    rcases (settle_isCompleted l key other).mp done with rfl | done
    · exact kept
    · exact consistent.completed other done

theorem add_consistent {l : Ledger} (consistent : l.Consistent) {uid : String} {role : Role}
    {unit : GeneratedUnit} (free : l.claimed[unit.qualifiedName]? = none) :
    Consistent
      { l with
        claimed := l.claimed.insert unit.qualifiedName (unitKey uid role unit)
        units := l.units.push unit } where
  distinct := by
    have fresh : ∀ other ∈ l.units.toList, other.qualifiedName ≠ unit.qualifiedName := by
      intro other member same
      obtain ⟨key, claimed⟩ := (consistent.claimed _).mpr ⟨other, member, same⟩
      simp [free] at claimed
    simpa [List.nodup_append, consistent.distinct] using fresh
  claimed name := by
    by_cases same : unit.qualifiedName = name
    · simp [same]
    · simpa [Std.TreeMap.getElem?_insert, same] using consistent.claimed name
  owned name key claimed := by
    by_cases same : unit.qualifiedName = name
    · rw [← same, Std.TreeMap.getElem?_insert_self] at claimed
      rw [← Option.some.inj claimed, ← same]
      rfl
    · exact consistent.owned name key (by simpa [Std.TreeMap.getElem?_insert, same] using claimed)
  completed key done := by
    -- a key that is done has a unit under its name, so the new name is another one
    obtain ⟨owner, claimed, kept⟩ := consistent.completed key done
    have other : unit.qualifiedName ≠ key.qualified := by
      intro same
      simp [← same, free] at claimed
    exact ⟨owner, by simp [Std.TreeMap.getElem?_insert, other, claimed], kept⟩

theorem enter_consistent {l : Ledger} (consistent : l.Consistent) (entry : Entry) :
    (l.enter entry).Consistent := by
  cases entry with
  | note diagnostics => exact report_consistent consistent diagnostics
  | skipped => exact consistent
  | unit uid role unit =>
    simp only [enter]
    rcases push_cases l (unitKey uid role unit) unit with
      ⟨free, pushed⟩ | ⟨known, pushed⟩ | ⟨owner, taken, pushed⟩ <;> rw [pushed]
    · apply settle_consistent (add_consistent consistent free)
      exact ⟨unitKey uid role unit, by simp [unitKey], .inl rfl⟩
    · exact settle_consistent consistent ⟨_, known, .inl rfl⟩
    · apply settle_consistent (report_consistent consistent _)
      exact ⟨owner, taken,
        .inr ⟨collision (unitKey uid role unit) owner unit.qualifiedName, by simp, rfl⟩⟩

theorem enterAll_consistent {l : Ledger} (consistent : l.Consistent) (journal : List Entry) :
    (l.enterAll journal).Consistent := by
  induction journal generalizing l with
  | nil => exact consistent
  | cons entry rest ih => exact ih (enter_consistent consistent entry)

theorem Consistent.exists_unit {l : Ledger} (consistent : l.Consistent) {key : Key}
    (done : l.isCompleted key = true) :
    ∃ unit ∈ l.units.toList, unit.qualifiedName = key.qualified := by
  obtain ⟨owner, claimed, _⟩ := consistent.completed key done
  exact (consistent.claimed _).mp ⟨owner, claimed⟩

theorem Consistent.claimed_of_quiet {l : Ledger} (consistent : l.Consistent)
    (quiet : ¬ l.Colliding) {key : Key} (done : l.isCompleted key = true) :
    l.claimed[key.qualified]? = some key := by
  obtain ⟨owner, claimed, rfl | colliding⟩ := consistent.completed key done
  · exact claimed
  -- the key was done without its unit, which has to have been reported
  · exact absurd colliding quiet

theorem Consistent.key_unique {l : Ledger} (consistent : l.Consistent) (quiet : ¬ l.Colliding)
    {key other : Key} (done : l.isCompleted key = true) (otherDone : l.isCompleted other = true)
    (same : key.qualified = other.qualified) : key = other := by
  have first := consistent.claimed_of_quiet quiet done
  rw [same, consistent.claimed_of_quiet quiet otherDone] at first
  exact (Option.some.inj first).symm

end Ledger

end Emission

end ContentModels
