import ContentModels.Proofs.Writer.Forecast

set_option autoImplicit false

namespace ContentModels

namespace World

def showing (s : World) (shown : List String) : World := { s with shown := shown }

end World

namespace Writer

variable {α β : Type}

-- Whether an act does the same no matter what has been shown, and shows nothing itself.
def Blind (act : ExceptT Failure (StateM World) α) : Prop :=
  ∀ s shown, act.run.run (s.showing shown) =
    ((act.run.run s).1, (act.run.run s).2.showing shown)

namespace Blind

theorem pure (a : α) : Blind (Pure.pure a) := fun _ _ => rfl

theorem bind {act : ExceptT Failure (StateM World) α}
    {next : α → ExceptT Failure (StateM World) β} (first : Blind act)
    (rest : ∀ a, Blind (next a)) : Blind (act >>= next) := by
  intro s shown
  rcases ran : act.run.run s with ⟨failure | a, t⟩
  all_goals
    have overlaid := first s shown
    rw [ran] at overlaid
  · rw [run_bind_error ran, run_bind_error overlaid]
  · rw [run_bind_ok ran, run_bind_ok overlaid]
    exact rest a t shown

theorem lift {act : StateM World α} (blind : ∀ s shown, act.run (s.showing shown) =
    ((act.run s).1, (act.run s).2.showing shown)) :
    Blind (liftM act : ExceptT Failure (StateM World) α) := by
  intro s shown
  have here : (liftM act : ExceptT Failure (StateM World) α).run.run s = _ :=
    run_lift (Prod.mk.eta (p := act.run s)).symm
  rw [run_lift (blind s shown), here]

theorem attempt {act : StateM World (Except String α)} (blind : ∀ s shown,
    act.run (s.showing shown) = ((act.run s).1, (act.run s).2.showing shown))
    (failure : String → WriteFailure) : Blind (attempt act failure) :=
  (lift blind).bind fun result => by
    cases result with
    | ok a => exact .pure a
    | error reason => exact fun _ _ => rfl

end Blind

theorem mayWrite_blind (w : Writer) (path : String) : Blind (w.mayWrite World.host path) := by
  refine Blind.bind (.lift fun _ _ => rfl) fun there => ?_
  split
  · exact .attempt (fun _ _ => rfl) _
  · exact .pure true

theorem ensureDirectory_blind (path : String) : Blind (ensureDirectory World.host path) := by
  refine Blind.bind (.lift fun _ _ => rfl) fun there => ?_
  split
  · exact .pure ()
  · exact .attempt (fun _ _ => rfl) _

theorem persist_blind (directory path content : String) :
    Blind (persist World.host directory path content) := by
  refine Blind.bind (.attempt (fun _ _ => rfl) _) fun created => ?_
  refine Blind.bind (.attempt (fun _ _ => rfl) _) fun filled => ?_
  exact .attempt (fun _ _ => rfl) _

theorem write_blind (w : Writer) (unit : RenderedUnit) : Blind (w.write World.host unit) := by
  rw [write_eq]
  split
  · exact .pure _
  · refine (mayWrite_blind w _).bind fun allowed => ?_
    split
    · exact (ensureDirectory_blind _).bind fun _ => (persist_blind _ _ _).bind fun _ => .pure _
    · exact .pure _

variable {w : Writer} {unit : RenderedUnit} {units : List RenderedUnit} {s t : World}
  {failure : Failure}

theorem session_blind (w : Writer) (units : List RenderedUnit) (s : World) (shown : List String) :
    w.session units (s.showing shown) =
      ((w.session units s).1, (w.session units s).2.showing shown) := by
  suffices blind : Blind (w.writeAll World.host units) from blind s shown
  induction units with
  | nil => exact .pure []
  | cons unit rest ih => exact (write_blind w unit).bind fun _ => ih.bind fun _ => .pure _

theorem session_stops (stopped : w.session units s = (.error failure, t)) :
    ∃ before unit after results middle, units = before ++ unit :: after ∧
      w.session before s = (.ok results, middle) ∧
      w.outcome unit middle = (.error failure, t) := by
  induction units generalizing s with
  | nil => simp [session_nil] at stopped
  | cons first rest ih =>
    rcases outcome : w.outcome first s with ⟨other | r, middle⟩
    case error =>
      obtain ⟨rfl, rfl⟩ : other = failure ∧ middle = t := by
        simpa [session_cons_error outcome] using stopped
      exact ⟨[], first, rest, [], s, rfl, rfl, outcome⟩
    case ok =>
      rw [session_cons_ok outcome] at stopped
      have further : w.session rest middle = (.error failure, t) := by
        rcases result : w.session rest middle with ⟨_ | _, _⟩
        all_goals simp_all [Except.map]
      obtain ⟨before, unit, after, results, last, rfl, written, failed⟩ := ih further
      refine ⟨first :: before, unit, after, r :: results, last, rfl, ?_, failed⟩
      rw [session_cons_ok outcome, written]
      rfl

-- Whether writing units ends at one of them. Those before it are written, and after that no file is
-- created or changed: there is nothing new but directories on the way to the file of the unit.
structure StopsAt (w : Writer) (before : List RenderedUnit) (unit : RenderedUnit) (s : World)
    (failure : WriteFailure) (t : World) : Prop where
  failure : (∃ reason, failure = .createDirectory (w.directory (w.target unit)) reason) ∨
    ∃ reason, failure = .writeFile (w.target unit) reason
  written : ∃ results middle, w.session before s = (.ok results, middle) ∧
    (∀ location content, middle.files.node? location = some (.file content) ↔
      t.files.node? location = some (.file content)) ∧
    middle.files.Widens (w.directory (w.target unit)) t.files

theorem Step.stops {result : Except Failure WriteResult} (step : w.Step unit s result t)
    (failed : result = .error failure) (alone : s.answer (w.target unit) = .ok false) :
    ∃ own, failure = .write own ∧
      ((∃ reason, own = .createDirectory (w.directory (w.target unit)) reason) ∨
        ∃ reason, own = .writeFile (w.target unit) reason) ∧
      s.files.Widens (w.directory (w.target unit)) t.files := by
  cases step with
  | dryRun | skipped | written => cases failed
  | refused _ _ _ answer => simp [alone] at answer
  | @unmade _ _ reason _ clear obstacle =>
    cases failed
    refine ⟨_, rfl, .inl ⟨reason, rfl⟩, ?_⟩
    rw [← clear.files]
    exact (Disk.makesPart obstacle).widens
  | @unwritten _ _ _ reason _ clear ensured obstacle =>
    cases failed
    obtain rfl := Disk.replace_error obstacle
    refine ⟨_, rfl, .inr ⟨reason, rfl⟩, ?_⟩
    rw [← clear.files]
    exact ensured.widens

theorem session_stopsAt (alone : ∀ path, s.answer path = .ok false)
    (stopped : w.session units s = (.error failure, t)) :
    ∃ before unit after own, units = before ++ unit :: after ∧ failure = .write own ∧
      w.StopsAt before unit s own t := by
  obtain ⟨before, unit, after, results, middle, split, written, failed⟩ := session_stops stopped
  have course := session_course w before s
  have step := outcome_step w unit middle
  rw [written] at course
  rw [failed] at step
  obtain ⟨own, rfl, named, widens⟩ := step.stops rfl (course.answer ▸ alone _)
  exact ⟨before, unit, after, own, split, rfl, named, results, middle, written, widens.files,
    widens⟩

end Writer

end ContentModels
