import ContentModels.Proofs.Disk
import ContentModels.Writer

set_option autoImplicit false

namespace ContentModels.Writer

variable (w : Writer)

def target (unit : RenderedUnit) : String := Path.join w.root unit.path

def directory (path : String) : String := (Path.parent? path).getD w.root

def outcome (unit : RenderedUnit) (s : World) : Except Failure WriteResult × World :=
  (w.write World.host unit).run.run s

def session (units : List RenderedUnit) (s : World) : Except Failure (List WriteResult) × World :=
  (w.writeAll World.host units).run.run s

def asking (s : World) (path : String) : World := { s with asked := path :: s.asked }

def changing (s : World) (files : FileTree) : World := { s with files := files }

inductive Clear (path : String) (s : World) : World → Prop where
  | free (vacant : s.files.contains path = false ∨ w.force = true) : Clear path s s
  | agreed (there : s.files.contains path = true) (careful : w.force = false)
    (answer : s.answer path = .ok true) : Clear path s (asking s path)

def Ensured (d : Disk) (t : FileTree) (path : String) (made : FileTree) : Prop :=
  t.contains path = true ∧ made = t ∨
    t.contains path = false ∧ d.makeDirectories t path = (made, .ok ())

inductive Step (unit : RenderedUnit) (s : World) : Except Failure WriteResult → World → Prop where
  | dryRun (dry : w.isDryRun = true) :
    Step unit s (.ok (.dryRun (w.target unit) unit.content)) s
  | skipped (real : w.isDryRun = false) (careful : w.force = false)
    (there : s.files.contains (w.target unit) = true)
    (answer : s.answer (w.target unit) = .ok false) :
    Step unit s (.ok (.skipped (w.target unit))) (asking s (w.target unit))
  | refused {reason : String} (real : w.isDryRun = false) (careful : w.force = false)
    (there : s.files.contains (w.target unit) = true)
    (answer : s.answer (w.target unit) = .error reason) :
    Step unit s (.error (.write (.prompt (w.target unit) reason))) (asking s (w.target unit))
  | unmade {t : World} {made : FileTree} {reason : String} (real : w.isDryRun = false)
    (clear : w.Clear (w.target unit) s t)
    (obstacle : t.disk.makeDirectories t.files (w.directory (w.target unit)) =
      (made, .error reason)) :
    Step unit s (.error (.write (.createDirectory (w.directory (w.target unit)) reason)))
      (changing t made)
  | unwritten {t : World} {made later : FileTree} {reason : String} (real : w.isDryRun = false)
    (clear : w.Clear (w.target unit) s t)
    (ensured : Ensured t.disk t.files (w.directory (w.target unit)) made)
    (obstacle : t.disk.replace made (w.directory (w.target unit)) (w.target unit) unit.content =
      (later, .error reason)) :
    Step unit s (.error (.write (.writeFile (w.target unit) reason))) (changing t later)
  | written {t : World} {made later : FileTree} (real : w.isDryRun = false)
    (clear : w.Clear (w.target unit) s t)
    (ensured : Ensured t.disk t.files (w.directory (w.target unit)) made)
    (done : t.disk.replace made (w.directory (w.target unit)) (w.target unit) unit.content =
      (later, .ok ())) :
    Step unit s (.ok (.written (w.target unit) unit.content.utf8ByteSize)) (changing t later)

section Runs

variable {α β : Type} {s t : World}

theorem run_bind_ok {act : ExceptT Failure (StateM World) α}
    {next : α → ExceptT Failure (StateM World) β} {a : α} (first : act.run.run s = (.ok a, t)) :
    (act >>= next).run.run s = (next a).run.run t := by
  rw [ExceptT.run_bind, StateT.run_bind, first]
  rfl

theorem run_bind_error {act : ExceptT Failure (StateM World) α}
    {next : α → ExceptT Failure (StateM World) β} {failure : Failure}
    (first : act.run.run s = (.error failure, t)) :
    (act >>= next).run.run s = (.error failure, t) := by
  rw [ExceptT.run_bind, StateT.run_bind, first]
  rfl

theorem run_lift {act : StateM World α} {a : α} (gives : act.run s = (a, t)) :
    (liftM act : ExceptT Failure (StateM World) α).run.run s = (.ok a, t) := by
  rw [ExceptT.run_liftM, StateT.run_map, gives]
  rfl

theorem attempt_ok {act : StateM World (Except String α)} {a : α}
    (done : act.run s = (.ok a, t)) (failure : String → WriteFailure) :
    (attempt act failure).run.run s = (.ok a, t) := by
  rw [attempt, run_bind_ok (run_lift done)]
  rfl

theorem attempt_error {act : StateM World (Except String α)} {reason : String}
    (failed : act.run s = (.error reason, t)) (failure : String → WriteFailure) :
    (attempt act failure).run.run s = (.error (.write (failure reason)), t) := by
  rw [attempt, run_bind_ok (run_lift failed)]
  rfl

theorem contains_run (path : String) (s : World) :
    (World.host.contains path).run s = (s.files.contains path, s) := rfl

theorem consent_run (path : String) (s : World) :
    (World.host.consent path).run s = (s.answer path, asking s path) := rfl

theorem change_run (act : Disk → FileTree → FileTree × Except String Unit) {files : FileTree}
    {result : Except String Unit} (acts : act s.disk s.files = (files, result)) :
    (World.change act).run s = (result, changing s files) := by
  have run : (World.change act).run s =
      ((act s.disk s.files).2, changing s (act s.disk s.files).1) := rfl
  rw [run, acts]

theorem createTemporary_run (directory : String) (s : World) :
    (World.host.createTemporary directory).run s =
      (s.disk.createTemporary s.files directory, s) := rfl

theorem append_run (temporary : Temporary) (content : String) (s : World) :
    (World.host.append temporary content).run s =
      (s.disk.append s.files temporary content, s) := rfl

end Runs

variable {w} {unit : RenderedUnit} {s t : World} {path : String}

theorem mayWrite_clear (clear : w.Clear path s t) :
    (w.mayWrite World.host path).run.run s = (.ok true, t) := by
  rw [mayWrite, run_bind_ok (run_lift (contains_run path s))]
  cases clear with
  | free vacant =>
    rw [if_neg (by rcases vacant with missing | forced <;> simp [*])]
    rfl
  | agreed there careful answer =>
    rw [if_pos (by simp [there, careful])]
    exact attempt_ok (by rw [consent_run, answer]) (.prompt path)

theorem mayWrite_declined (there : s.files.contains path = true) (careful : w.force = false)
    (answer : s.answer path = .ok false) :
    (w.mayWrite World.host path).run.run s = (.ok false, asking s path) := by
  rw [mayWrite, run_bind_ok (run_lift (contains_run path s)), if_pos (by simp [there, careful])]
  exact attempt_ok (by rw [consent_run, answer]) (.prompt path)

theorem mayWrite_refused (there : s.files.contains path = true) (careful : w.force = false)
    {reason : String} (answer : s.answer path = .error reason) :
    (w.mayWrite World.host path).run.run s =
      (.error (.write (.prompt path reason)), asking s path) := by
  rw [mayWrite, run_bind_ok (run_lift (contains_run path s)), if_pos (by simp [there, careful])]
  exact attempt_error (by rw [consent_run, answer]) (.prompt path)

theorem ensureDirectory_ok {made : FileTree} (ensured : Ensured s.disk s.files path made) :
    (ensureDirectory World.host path).run.run s = (.ok (), changing s made) := by
  rw [ensureDirectory, run_bind_ok (run_lift (contains_run path s))]
  obtain ⟨there, rfl⟩ | ⟨missing, makes⟩ := ensured
  · rw [if_pos there]
    rfl
  · rw [if_neg (by simp [missing])]
    exact attempt_ok (change_run (fun disk files => disk.makeDirectories files path) makes)
      (.createDirectory path)

theorem ensureDirectory_error {made : FileTree} {reason : String}
    (missing : s.files.contains path = false)
    (obstacle : s.disk.makeDirectories s.files path = (made, .error reason)) :
    (ensureDirectory World.host path).run.run s =
      (.error (.write (.createDirectory path reason)), changing s made) := by
  rw [ensureDirectory, run_bind_ok (run_lift (contains_run path s)), if_neg (by simp [missing])]
  exact attempt_error (change_run (fun disk files => disk.makeDirectories files path) obstacle)
    (.createDirectory path)

section Persisting

variable {directory content : String} {later : FileTree} {reason : String}

theorem persist_run (directory path content : String) (s : World) :
    (persist World.host directory path content).run.run s =
      ((s.disk.replace s.files directory path content).2.mapError fun reason =>
          .write (.writeFile path reason),
        changing s (s.disk.replace s.files directory path content).1) := by
  have creates := createTemporary_run directory s
  unfold Disk.replace
  cases created : s.disk.createTemporary s.files directory with
  | error reason =>
    rw [created] at creates
    exact run_bind_error (attempt_error creates _)
  | ok empty =>
    rw [created] at creates
    rw [persist, run_bind_ok (attempt_ok creates _)]
    have appends := append_run empty content s
    dsimp only
    cases appended : s.disk.append s.files empty content with
    | error reason =>
      rw [appended] at appends
      exact run_bind_error (attempt_error appends _)
    | ok filled =>
      rw [appended] at appends
      rw [run_bind_ok (attempt_ok appends _)]
      dsimp only
      rcases persists : s.disk.persist s.files filled path with ⟨later, reason | _⟩
      · exact attempt_error
          (change_run (fun disk files => disk.persist files filled path) persists) _
      · exact attempt_ok
          (change_run (fun disk files => disk.persist files filled path) persists) _

theorem persist_ok (done : s.disk.replace s.files directory path content = (later, .ok ())) :
    (persist World.host directory path content).run.run s = (.ok (), changing s later) := by
  rw [persist_run, done]
  rfl

theorem persist_error
    (failed : s.disk.replace s.files directory path content = (later, .error reason)) :
    (persist World.host directory path content).run.run s =
      (.error (.write (.writeFile path reason)), changing s later) := by
  rw [persist_run, failed]
  rfl

end Persisting

theorem write_eq (w : Writer) (unit : RenderedUnit) :
    w.write World.host unit =
      if w.isDryRun then return .dryRun (w.target unit) unit.content
      else do
        if ← w.mayWrite World.host (w.target unit) then
          ensureDirectory World.host (w.directory (w.target unit))
          persist World.host (w.directory (w.target unit)) (w.target unit) unit.content
          return .written (w.target unit) unit.content.utf8ByteSize
        else return .skipped (w.target unit) := rfl

section Writing

variable {made later : FileTree} {reason : String} (real : w.isDryRun = false)
  (clear : w.Clear (w.target unit) s t)

include real clear

theorem outcome_eq : w.outcome unit s = (do
    ensureDirectory World.host (w.directory (w.target unit))
    persist World.host (w.directory (w.target unit)) (w.target unit) unit.content
    return .written (w.target unit) unit.content.utf8ByteSize :
      ExceptT Failure (StateM World) WriteResult).run.run t := by
  rw [outcome, write_eq, if_neg (by simp [real]), run_bind_ok (mayWrite_clear clear), if_pos rfl]

theorem outcome_unmade (missing : t.files.contains (w.directory (w.target unit)) = false)
    (obstacle : t.disk.makeDirectories t.files (w.directory (w.target unit)) =
      (made, .error reason)) :
    w.outcome unit s = (.error (.write (.createDirectory (w.directory (w.target unit)) reason)),
      changing t made) := by
  rw [outcome_eq real clear, run_bind_error (ensureDirectory_error missing obstacle)]

variable (ensured : Ensured t.disk t.files (w.directory (w.target unit)) made)

include ensured

theorem outcome_unwritten
    (obstacle : t.disk.replace made (w.directory (w.target unit)) (w.target unit) unit.content =
      (later, .error reason)) :
    w.outcome unit s =
      (.error (.write (.writeFile (w.target unit) reason)), changing t later) := by
  have failed := persist_error (s := changing t made) obstacle
  rw [outcome_eq real clear, run_bind_ok (ensureDirectory_ok ensured), run_bind_error failed]
  rfl

theorem outcome_written
    (done : t.disk.replace made (w.directory (w.target unit)) (w.target unit) unit.content =
      (later, .ok ())) :
    w.outcome unit s =
      (.ok (.written (w.target unit) unit.content.utf8ByteSize), changing t later) := by
  have persisted := persist_ok (s := changing t made) done
  rw [outcome_eq real clear, run_bind_ok (ensureDirectory_ok ensured), run_bind_ok persisted]
  rfl

end Writing

theorem outcome_clear (real : w.isDryRun = false) (clear : w.Clear (w.target unit) s t) :
    w.Step unit s (w.outcome unit s).1 (w.outcome unit s).2 := by
  have directory : (∃ made, Ensured t.disk t.files (w.directory (w.target unit)) made) ∨
      ∃ made reason, t.files.contains (w.directory (w.target unit)) = false ∧
        t.disk.makeDirectories t.files (w.directory (w.target unit)) =
          (made, .error reason) := by
    cases there : t.files.contains (w.directory (w.target unit)) with
    | true => exact .inl ⟨t.files, .inl ⟨there, rfl⟩⟩
    | false =>
      rcases makes : t.disk.makeDirectories t.files (w.directory (w.target unit)) with
        ⟨made, _ | _⟩
      · exact .inr ⟨made, _, rfl, rfl⟩
      · exact .inl ⟨made, .inr ⟨there, makes⟩⟩
  rcases directory with ⟨made, ensured⟩ | ⟨made, reason, missing, obstacle⟩
  · rcases replaces : t.disk.replace made (w.directory (w.target unit)) (w.target unit)
      unit.content with ⟨later, reason | _⟩
    · rw [outcome_unwritten real clear ensured replaces]
      exact .unwritten real clear ensured replaces
    · rw [outcome_written real clear ensured replaces]
      exact .written real clear ensured replaces
  · rw [outcome_unmade real clear missing obstacle]
    exact .unmade real clear obstacle

theorem outcome_step (w : Writer) (unit : RenderedUnit) (s : World) :
    w.Step unit s (w.outcome unit s).1 (w.outcome unit s).2 := by
  by_cases dry : w.isDryRun = true
  case pos =>
    have ends : w.outcome unit s = (.ok (.dryRun (w.target unit) unit.content), s) := by
      rw [outcome, write_eq, if_pos dry]
      rfl
    rw [ends]
    exact .dryRun dry
  case neg =>
    have real : w.isDryRun = false := by simpa using dry
    by_cases free : s.files.contains (w.target unit) = false ∨ w.force = true
    case pos => exact outcome_clear real (.free free)
    case neg =>
      obtain ⟨there, careful⟩ : s.files.contains (w.target unit) = true ∧ w.force = false := by
        simpa using free
      have go : w.outcome unit s = ((w.mayWrite World.host (w.target unit) >>= fun may => do
          if may then
            ensureDirectory World.host (w.directory (w.target unit))
            persist World.host (w.directory (w.target unit)) (w.target unit) unit.content
            return .written (w.target unit) unit.content.utf8ByteSize
          else return .skipped (w.target unit) :
            ExceptT Failure (StateM World) WriteResult)).run.run s := by
        rw [outcome, write_eq, if_neg dry]
      cases answer : s.answer (w.target unit) with
      | error reason =>
        rw [go, run_bind_error (mayWrite_refused there careful answer)]
        exact .refused real careful there answer
      | ok agreed =>
        cases agreed with
        | true => exact outcome_clear real (.agreed there careful answer)
        | false =>
          rw [go, run_bind_ok (mayWrite_declined there careful answer)]
          exact .skipped real careful there answer

theorem Ensured.growth {touched : Location → Prop} {d : Disk} {t made : FileTree}
    (ensured : Ensured d t path made) : t.Growth touched made := by
  obtain ⟨_, rfl⟩ | ⟨_, makes⟩ := ensured
  · exact .refl made
  · exact (Disk.makesPart makes).growth

namespace Clear

variable (clear : w.Clear path s t)

include clear

theorem files : t.files = s.files := by cases clear <;> rfl

theorem disk : t.disk = s.disk := by cases clear <;> rfl

theorem answer : t.answer = s.answer := by cases clear <;> rfl

theorem allowed : s.files.contains path = false ∨ w.force = true ∨ s.answer path = .ok true := by
  cases clear with
  | free vacant => exact vacant.imp_right .inl
  | agreed _ _ answer => exact .inr (.inr answer)

theorem asked (real : w.isDryRun = false) : t.asked = s.asked ∨ t.asked = path :: s.asked ∧
    s.files.contains path = true ∧ w.force = false ∧ w.isDryRun = false := by
  cases clear with
  | free => exact .inl rfl
  | agreed there careful => exact .inr ⟨rfl, there, careful, real⟩

end Clear

namespace Step

variable {result : Except Failure WriteResult} {later : World}

theorem answer (step : w.Step unit s result later) : later.answer = s.answer := by
  cases step with
  | dryRun | skipped | refused => rfl
  | unmade _ clear _ | unwritten _ clear _ _ | written _ clear _ _ => exact clear.answer

theorem growth (step : w.Step unit s result later) :
    s.files.Growth (fun l => later.files.locate (w.target unit) = some l) later.files := by
  cases step with
  | dryRun | skipped | refused => exact .refl s.files
  | unmade _ clear obstacle =>
    rw [← clear.files]
    exact (Disk.makesPart obstacle).growth
  | unwritten _ clear ensured obstacle =>
    obtain rfl := Disk.replace_error obstacle
    rw [← clear.files]
    exact ensured.growth
  | written _ clear ensured done =>
    obtain ⟨growth, _⟩ := FileTree.write_ok (Disk.replace_ok done)
    rw [← clear.files]
    exact ensured.growth.trans (growth.mono fun l leads => growth.locate leads)

theorem dry (step : w.Step unit s result later) (dry : w.isDryRun = true) : later = s := by
  cases step <;> simp_all

-- A file is only ever replaced by the unit whose path leads to it.
theorem replaces (step : w.Step unit s result later) {location : Location} {content : ByteArray}
    (file : s.files.node? location = some (.file content))
    (changed : later.files.node? location ≠ some (.file content)) :
    w.isDryRun = false ∧ later.files.locate (w.target unit) = some location ∧
      (s.files.contains (w.target unit) = false ∨ w.force = true ∨
        s.answer (w.target unit) = .ok true) := by
  have leads : later.files.locate (w.target unit) = some location := by
    by_contra apart
    exact changed ((step.growth.frame location apart content).mp file)
  cases step with
  | dryRun | skipped | refused => exact absurd file changed
  | unmade real clear obstacle => exact ⟨real, leads, clear.allowed⟩
  | unwritten real clear ensured obstacle => exact ⟨real, leads, clear.allowed⟩
  | written real clear ensured done => exact ⟨real, leads, clear.allowed⟩

theorem contains {r : WriteResult} (step : w.Step unit s (.ok r) later)
    (real : w.isDryRun = false) : later.files.contains (w.target unit) = true := by
  cases step with
  | dryRun dry => simp [dry] at real
  | skipped _ _ there _ => exact there
  | written _ _ _ done => simp [changing, FileTree.contains, (FileTree.write_ok (Disk.replace_ok done)).2]

end Step

-- One unit at a time: who is asked, and what the answer means for the file.
structure Careful (w : Writer) (unit : RenderedUnit) (s : World)
    (result : Except Failure WriteResult) (later : World) : Prop where
  asked : later.asked = s.asked ∨ later.asked = w.target unit :: s.asked ∧
    s.files.contains (w.target unit) = true ∧ w.force = false ∧ w.isDryRun = false
  written : ∀ path bytes, result = .ok (.written path bytes) → path = w.target unit ∧
    bytes = unit.content.utf8ByteSize ∧
    later.files.find? path = some (.file unit.content.toUTF8)
  skipped : ∀ path, result = .ok (.skipped path) → later.files = s.files
  refused : ∀ path reason, result = .error (.write (.prompt path reason)) → later.files = s.files

theorem Step.careful {result : Except Failure WriteResult} {later : World}
    (step : w.Step unit s result later) : w.Careful unit s result later := by
  cases step with
  | dryRun dry => exact ⟨.inl rfl, nofun, nofun, nofun⟩
  | skipped real careful there answer =>
    exact ⟨.inr ⟨rfl, there, careful, real⟩, nofun, fun _ _ => rfl, nofun⟩
  | refused real careful there answer =>
    exact ⟨.inr ⟨rfl, there, careful, real⟩, nofun, nofun, fun _ _ _ => rfl⟩
  | unmade real clear obstacle => exact ⟨clear.asked real, nofun, nofun, nofun⟩
  | unwritten real clear ensured obstacle => exact ⟨clear.asked real, nofun, nofun, nofun⟩
  | written real clear ensured done =>
    refine ⟨clear.asked real, ?_, nofun, nofun⟩
    rintro path bytes ⟨⟩
    exact ⟨rfl, rfl, (FileTree.write_ok (Disk.replace_ok done)).2⟩

def Framed (w : Writer) (units : List RenderedUnit) (s later : World) : Prop :=
  ∀ location, (∀ unit ∈ units, later.files.locate (w.target unit) ≠ some location) →
    ∀ content, s.files.node? location = some (.file content) ↔
      later.files.node? location = some (.file content)

theorem session_nil (w : Writer) (s : World) : w.session [] s = (.ok [], s) := rfl

theorem session_cons_ok {rest : List RenderedUnit} {r : WriteResult}
    (first : w.outcome unit s = (.ok r, t)) :
    w.session (unit :: rest) s = ((w.session rest t).1.map (r :: ·), (w.session rest t).2) := by
  have go : w.session (unit :: rest) s = (do
      let results ← w.writeAll World.host rest
      return r :: results : ExceptT Failure (StateM World) _).run.run t := run_bind_ok first
  rw [go]
  rcases further : w.session rest t with ⟨failure | results, later⟩
  · exact run_bind_error further
  · exact run_bind_ok further

theorem session_cons_error {rest : List RenderedUnit} {failure : Failure}
    (first : w.outcome unit s = (.error failure, t)) :
    w.session (unit :: rest) s = (.error failure, t) := run_bind_error first

theorem session_singleton (w : Writer) (unit : RenderedUnit) (s : World) :
    w.session [unit] s = ((w.outcome unit s).1.map ([·]), (w.outcome unit s).2) := by
  rcases outcome : w.outcome unit s with ⟨failure | r, t⟩
  · rw [session_cons_error outcome]
    rfl
  · rw [session_cons_ok outcome]
    rfl

theorem session_append {before after : List RenderedUnit} {results : List WriteResult}
    (first : w.session before s = (.ok results, t)) :
    w.session (before ++ after) s =
      ((w.session after t).1.map (results ++ ·), (w.session after t).2) := by
  induction before generalizing s results with
  | nil =>
    obtain ⟨rfl, rfl⟩ : [] = results ∧ s = t := by simpa [session_nil] using first
    rw [List.nil_append]
    rcases w.session after s with ⟨_ | _, _⟩ <;> rfl
  | cons unit rest ih =>
    rcases outcome : w.outcome unit s with ⟨failure | r, middle⟩
    case error => simp [session_cons_error outcome] at first
    case ok =>
      rw [session_cons_ok outcome] at first
      rcases further : w.session rest middle with ⟨failure | others, last⟩
      case error => simp [further, Except.map] at first
      case ok =>
        obtain ⟨rfl, rfl⟩ : r :: others = results ∧ last = t := by
          simpa [further, Except.map] using first
        rw [List.cons_append, session_cons_ok outcome, ih further]
        rcases w.session after last with ⟨_ | _, _⟩ <;> rfl

inductive Course (w : Writer) :
    List RenderedUnit → World → Except Failure (List WriteResult) → World → Prop where
  | done (s : World) : Course w [] s (.ok []) s
  | stopped {unit : RenderedUnit} {s t : World} {failure : Failure}
    (step : w.Step unit s (.error failure) t) (rest : List RenderedUnit) :
    Course w (unit :: rest) s (.error failure) t
  | further {unit : RenderedUnit} {s t later : World} {r : WriteResult}
    {rest : List RenderedUnit} {result : Except Failure (List WriteResult)}
    (step : w.Step unit s (.ok r) t) (course : Course w rest t result later) :
    Course w (unit :: rest) s (result.map (r :: ·)) later

theorem session_course (w : Writer) (units : List RenderedUnit) (s : World) :
    w.Course units s (w.session units s).1 (w.session units s).2 := by
  induction units generalizing s with
  | nil => exact .done s
  | cons unit rest ih =>
    have step := outcome_step w unit s
    rcases outcome : w.outcome unit s with ⟨failure | r, t⟩
    case error =>
      rw [session_cons_error outcome]
      exact .stopped (by rwa [outcome] at step) rest
    case ok =>
      rw [session_cons_ok outcome]
      exact .further (by rwa [outcome] at step) (ih t)

def Touches (w : Writer) (units : List RenderedUnit) (t : FileTree) (location : Location) : Prop :=
  ∃ unit ∈ units, t.locate (w.target unit) = some location

namespace Course

variable {units : List RenderedUnit} {result : Except Failure (List WriteResult)} {later : World}

theorem answer (course : w.Course units s result later) : later.answer = s.answer := by
  induction course with
  | done => rfl
  | stopped step => exact step.answer
  | further step _ ih => exact ih.trans step.answer

theorem growth (course : w.Course units s result later) :
    s.files.Growth (w.Touches units later.files) later.files := by
  induction course with
  | done s => exact .refl s.files
  | @stopped unit s t _ step rest =>
    exact step.growth.mono fun l leads => ⟨unit, List.mem_cons_self, leads⟩
  | @further unit s t later _ rest _ step _ ih =>
    have here : s.files.Growth (w.Touches (unit :: rest) later.files) t.files :=
      step.growth.mono fun l leads => ⟨unit, List.mem_cons_self, ih.locate leads⟩
    refine here.trans (ih.mono ?_)
    rintro l ⟨other, member, leads⟩
    exact ⟨other, List.mem_cons_of_mem unit member, leads⟩

theorem framed (course : w.Course units s result later) : w.Framed units s later := by
  intro location apart content
  refine course.growth.frame location ?_ content
  rintro ⟨unit, member, leads⟩
  exact apart unit member leads

theorem dry (course : w.Course units s result later) (dry : w.isDryRun = true) : later = s := by
  induction course with
  | done => rfl
  | stopped step => exact step.dry dry
  | further step _ ih => exact ih.trans (step.dry dry)

theorem contains (course : w.Course units s result later) (real : w.isDryRun = false)
    {results : List WriteResult} (done : result = .ok results) :
    ∀ unit ∈ units, later.files.contains (w.target unit) = true := by
  induction course generalizing results with
  | done => exact nofun
  | stopped => cases done
  | @further unit s t later r rest result step course ih =>
    obtain _ | others := result
    case error => cases done
    case ok =>
      intro other member
      rcases List.mem_cons.mp member with rfl | member
      · exact course.growth.contains (step.contains real)
      · exact ih rfl other member

end Course

theorem session_declined {units : List RenderedUnit} (real : w.isDryRun = false)
    (careful : w.force = false)
    (there : ∀ unit ∈ units, s.files.contains (w.target unit) = true)
    (answer : ∀ unit ∈ units, s.answer (w.target unit) = .ok false) :
    (w.session units s).1 = .ok (units.map fun unit => .skipped (w.target unit)) ∧
      (w.session units s).2.files = s.files := by
  induction units generalizing s with
  | nil => exact ⟨rfl, rfl⟩
  | cons unit rest ih =>
    have first : w.outcome unit s =
        (.ok (.skipped (w.target unit)), asking s (w.target unit)) := by
      rw [outcome, write_eq, if_neg (by simp [real]), run_bind_ok (mayWrite_declined
        (there unit List.mem_cons_self) careful (answer unit List.mem_cons_self))]
      rfl
    obtain ⟨results, files⟩ := @ih (asking s (w.target unit))
      (fun other member => there other (List.mem_cons_of_mem unit member))
      fun other member => answer other (List.mem_cons_of_mem unit member)
    rw [session_cons_ok first, results, files]
    exact ⟨rfl, rfl⟩

end ContentModels.Writer
