import ContentModels.Run
import ContentModels.Proofs.Writer.Stopping

set_option autoImplicit false

namespace ContentModels

namespace Export

theorem fetchFrom_pure (e : Export) (collection : Collection) (fetched : List Definition) :
    ∃ all, ∀ (m : Type → Type) [Monad m] [LawfulMonad m],
      (e.source : Source m).fetchFrom collection fetched = pure all := by
  induction fetched using Source.fetchFrom.induct collection with
  | case1 fetched ih =>
    let page := e.page collection fetched.length
    let marked := fetched ++ collection.marked page.items
    have go (m : Type → Type) [Monad m] [LawfulMonad m] :
        (e.source : Source m).fetchFrom collection fetched =
          if page.items = [] then pure fetched
          else if marked.length < page.count.toNat then e.source.fetchFrom collection marked
          else pure marked := by
      rw [Source.fetchFrom_eq]
      exact pure_bind page _
    by_cases none : page.items = []
    case pos => exact ⟨fetched, fun m _ _ => by rw [go, if_pos none]⟩
    case neg =>
      by_cases further : marked.length < page.count.toNat
      case pos =>
        obtain ⟨all, rest⟩ := ih page none further
        exact ⟨all, fun m _ _ => by rw [go, if_neg none, if_pos further]; exact rest m⟩
      case neg => exact ⟨marked, fun m _ _ => by rw [go, if_neg none, if_neg further]⟩

theorem loadRegistry_pure (e : Export) : ∃ registry, ∀ (m : Type → Type) [Monad m] [LawfulMonad m],
    (e.source : Source m).loadRegistry = pure registry := by
  obtain ⟨contentTypes, first⟩ := e.fetchFrom_pure .contentTypes []
  obtain ⟨globalFields, second⟩ := e.fetchFrom_pure .globalFields []
  refine ⟨(Registry.ofList contentTypes).extend globalFields, fun m _ _ => ?_⟩
  rw [Source.loadRegistry, Source.fetchCollection, Source.fetchCollection, first, second]
  simp

def models (config : Config) (e : Export) : Except Failure Models :=
  (Models.ofSource config (e.source : Models.FallibleSource Id)).run

theorem models_eq {e : Export} {registry : Registry}
    (loads : ∀ (m : Type → Type) [Monad m] [LawfulMonad m],
      (e.source : Source m).loadRegistry = pure registry) (config : Config) :
    e.models config = Models.ofRegistry config (e.stack.getD {}) registry := by
  rw [models, Models.ofSource, loads]
  rfl

end Export

namespace Run

open Writer CommandLine

variable {s t : World}

theorem say_run (line : String) (s : World) :
    (say World.host line).run.run s = (.ok (), s.showing (line :: s.shown)) := rfl

theorem sayAll_run (lines : List String) (s : World) :
    (lines.forM (say World.host)).run.run s = (.ok (), s.showing (lines.reverse ++ s.shown)) := by
  induction lines generalizing s with
  | nil => rfl
  | cons line rest ih =>
    have go : ((line :: rest).forM (say World.host)).run.run s =
        (rest.forM (say World.host)).run.run (s.showing (line :: s.shown)) :=
      run_bind_ok (say_run line s)
    rw [go, ih]
    simp [World.showing]

theorem writeUnits_run (w : Writer) (units : List RenderedUnit) (s : World) :
    ∃ shown, (writeUnits World.host w units).run.run s =
      ((w.session units s).1, (w.session units s).2.showing shown) := by
  induction units generalizing s with
  | nil => exact ⟨s.shown, rfl⟩
  | cons unit rest ih =>
    rcases outcome : w.outcome unit s with ⟨failure | r, t⟩
    · refine ⟨t.shown, ?_⟩
      rw [session_cons_error outcome]
      exact run_bind_error outcome
    · obtain ⟨shown, further⟩ := ih (t.showing ((resultLines r).reverse ++ t.shown))
      refine ⟨shown, ?_⟩
      have told := sayAll_run (resultLines r) t
      rw [session_blind] at further
      rw [writeUnits, run_bind_ok outcome, run_bind_ok told, session_cons_ok outcome]
      rcases session : w.session rest t with ⟨failure | results, later⟩
      all_goals rw [session] at further
      · exact run_bind_error further
      · exact run_bind_ok further

def decoded (content : Except String ByteArray) : Except String String :=
  match content with
  | .error reason => .error reason
  | .ok content =>
    match String.fromUTF8? content with
    | some text => .ok text
    | none => .error "the file is not UTF-8 text"

theorem readText_run (path : String) (s : World) :
    (World.host.readText path).run s = (decoded (s.files.read path), s) := by
  have go : (World.host.readText path).run s =
      (match s.files.read path with
      | .error reason => (return .error reason : StateM World (Except String String))
      | .ok content =>
        match String.fromUTF8? content with
        | some text => return .ok text
        | none => return .error "the file is not UTF-8 text").run s := rfl
  rw [go]
  unfold decoded
  cases s.files.read path with
  | error => rfl
  | ok content =>
    dsimp only
    cases String.fromUTF8? content <;> rfl

theorem readConfig_reads (path : String) (content : Except String ByteArray) :
    ∃ r : Except ConfigFailure Config, ∀ s : World, s.files.read path = content →
      (readConfig World.host path).run.run s = (r.mapError .config, s) := by
  cases held : decoded content with
  | error reason =>
    refine ⟨.error (.unreadable path reason), fun s same => ?_⟩
    rw [readConfig, run_bind_ok (run_lift (readText_run path s)), same, held]
    rfl
  | ok text =>
    cases parsed : Config.ofText path text with
    | error failure =>
      refine ⟨.error failure, fun s same => ?_⟩
      rw [readConfig, run_bind_ok (run_lift (readText_run path s)), same, held]
      simp only [parsed]
      rfl
    | ok config =>
      refine ⟨.ok config, fun s same => ?_⟩
      rw [readConfig, run_bind_ok (run_lift (readText_run path s)), same, held]
      simp only [parsed]
      rfl

def consulted (t : FileTree) (path : Option String) : Option (String × Except String ByteArray) :=
  match path with
  | some path => some (path, t.read path)
  | none =>
    if t.contains Config.standardPath then
      some (Config.standardPath, t.read Config.standardPath)
    else none

theorem loadConfig_reads (path : Option String)
    (seen : Option (String × Except String ByteArray)) :
    ∃ r : Except ConfigFailure Config, ∀ s : World, consulted s.files path = seen →
      (loadConfig World.host path).run.run s = (r.mapError .config, s) := by
  cases seen with
  | none =>
    refine ⟨.ok {}, fun s same => ?_⟩
    cases path with
    | some path => cases same
    | none =>
      have missing : s.files.contains Config.standardPath = false := by
        simpa [consulted] using same
      rw [loadConfig, run_bind_ok (run_lift (contains_run Config.standardPath s)), missing]
      rfl
  | some file =>
    obtain ⟨own, content⟩ := file
    obtain ⟨r, reads⟩ := readConfig_reads own content
    refine ⟨r, fun s same => ?_⟩
    cases path with
    | some path =>
      obtain ⟨rfl, held⟩ := Prod.mk.inj (Option.some.inj same)
      exact reads s held
    | none =>
      rw [consulted] at same
      split at same
      next there =>
        obtain ⟨rfl, held⟩ := Prod.mk.inj (Option.some.inj same)
        rw [loadConfig, run_bind_ok (run_lift (contains_run Config.standardPath s)), there]
        exact reads s held
      next => cases same

theorem configure_reads (path : Option String) (overrides : Config.Overrides)
    (seen : Option (String × Except String ByteArray)) :
    ∃ r : Except ConfigFailure Config, ∀ s : World, consulted s.files path = seen →
      (configure World.host path overrides).run.run s = (r.mapError .config, s) := by
  obtain ⟨loaded, reads⟩ := loadConfig_reads path seen
  cases loaded with
  | error failure => exact ⟨.error failure, fun s same => run_bind_error (reads s same)⟩
  | ok config =>
    cases valid : (config.override overrides).validate with
    | error failure =>
      refine ⟨.error failure, fun s same => ?_⟩
      rw [configure, run_bind_ok (reads s same)]
      simp only [valid]
      rfl
    | ok =>
      refine ⟨.ok (config.override overrides), fun s same => ?_⟩
      rw [configure, run_bind_ok (reads s same)]
      simp only [valid]
      rfl

def opened (path : String) (content : Except String ByteArray) : Except FetchFailure Export :=
  match decoded content with
  | .error reason => .error (.unreadable path reason)
  | .ok text => Export.ofText path text

theorem openExport_run (path : String) (s : World) :
    (openExport World.host path).run.run s = (opened path (s.files.read path), s) := by
  have go : (openExport World.host path).run.run s =
      (match decoded (s.files.read path) with
      | .error reason =>
        (throw (FetchFailure.unreadable path reason) : ExceptT FetchFailure (StateM World) Export)
      | .ok text => ExceptT.mk (pure (Export.ofText path text))).run.run s := by
    rw [openExport, ExceptT.run_bind, StateT.run_bind, ExceptT.run_liftM, StateT.run_map,
      readText_run]
    rfl
  rw [go, opened]
  cases decoded (s.files.read path) <;> rfl

variable {a : GenerateArguments} {path : String} {e : Export}

theorem openSource_eq (offline : a.fromFile = some path) (send : Client.Transport (StateM World))
    (config : Config) : openSource World.host send config a = (do
      say World.host ("Reading schema export " ++ path)
      let exported ← Models.fetching (openExport World.host path)
      return exported.source) := by
  rw [openSource, offline]

theorem openSource_error (offline : a.fromFile = some path) {f : FetchFailure}
    (unread : opened path (s.files.read path) = .error f) (send : Client.Transport (StateM World))
    (config : Config) : ∃ shown, (openSource World.host send config a).run.run s =
      (.error (.fetch f), s.showing shown) := by
  refine ⟨("Reading schema export " ++ path) :: s.shown, ?_⟩
  rw [openSource_eq offline, run_bind_ok (say_run _ s)]
  apply run_bind_error
  rw [Models.fetching_run, openExport_run, World.showing, unread]
  rfl

theorem openSource_ok (offline : a.fromFile = some path)
    (read : opened path (s.files.read path) = .ok e) (send : Client.Transport (StateM World))
    (config : Config) : ∃ shown, (openSource World.host send config a).run.run s =
      (.ok e.source, s.showing shown) := by
  refine ⟨("Reading schema export " ++ path) :: s.shown, ?_⟩
  rw [openSource_eq offline, run_bind_ok (say_run _ s)]
  refine run_bind_ok (a := e) (t := s.showing _) ?_
  rw [Models.fetching_run, openExport_run, World.showing, read]
  rfl

theorem collect_run (config : Config) (e : Export) (s : World) :
    ∃ models shown, e.models config = .ok models ∧
      (collect World.host config e.source).run.run s = (.ok models, s.showing shown) := by
  obtain ⟨registry, loads⟩ := e.loadRegistry_pure
  obtain ⟨models, generated, _⟩ := Models.ofRegistry_eq config (e.stack.getD {}) registry
  have whole : e.models config = .ok models := (e.models_eq loads config).trans generated
  have described (s : World) :
      (Models.fetching (e.source : Models.FallibleSource (StateM World)).stack).run.run s =
        (.ok (e.stack.getD {}), s) := Models.fetching_yields rfl
  have loaded (s : World) :
      (Models.fetching (e.source : Models.FallibleSource (StateM World)).loadRegistry).run.run s =
        (.ok registry, s) := by
    rw [loads]
    exact Models.fetching_yields rfl
  have generates (s : World) : ∃ shown, (do
      say World.host "Fetching content types and global fields..."
      let registry ← Models.fetching (e.source : Models.FallibleSource (StateM World)).loadRegistry
      say World.host
        ("  Found " ++ toString registry.contentTypes.length ++ " content type(s) and " ++
          toString registry.globalFields.length ++ " global field(s)")
      say World.host "Generating models..."
      ExceptT.mk (pure (Models.ofRegistry config (e.stack.getD {}) registry)) :
        ExceptT Failure (StateM World) Models).run.run s = (.ok models, s.showing shown) := by
    rw [run_bind_ok (say_run _ s), run_bind_ok (loaded _), run_bind_ok (say_run _ _),
      run_bind_ok (say_run _ _), generated]
    exact ⟨_, rfl⟩
  rw [collect, run_bind_ok (say_run _ s), run_bind_ok (described _)]
  -- the name of the stack is only shown if there is one
  split
  next =>
    rw [run_bind_ok (say_run _ _)]
    obtain ⟨shown, told⟩ := generates _
    exact ⟨models, shown, whole, told⟩
  next =>
    obtain ⟨shown, told⟩ := generates _
    exact ⟨models, shown, whole, told⟩

theorem reportWarnings_run (models : Models) (s : World) :
    ∃ shown, (reportWarnings World.host models).run.run s = (.ok (), s.showing shown) := by
  have display (warnings : List Diagnostic) (s : World) :
      ∃ shown, (warnings.forM fun warning => say World.host ("  " ++ warning.display)).run.run s =
        (.ok (), s.showing shown) := by
    induction warnings generalizing s with
    | nil => exact ⟨s.shown, rfl⟩
    | cons warning rest ih =>
      obtain ⟨shown, told⟩ := ih (s.showing (("  " ++ warning.display) :: s.shown))
      exact ⟨shown, (run_bind_ok (say_run _ s)).trans told⟩
  rw [reportWarnings]
  split
  next =>
    obtain ⟨shown, told⟩ := display models.warnings (s.showing
      (("Warning: " ++ toString models.warnings.length ++ " schema problem(s):") :: s.shown))
    exact ⟨shown, (run_bind_ok (say_run _ s)).trans told⟩
  next => exact ⟨s.shown, rfl⟩

inductive Fails (a : GenerateArguments) (path : String) (s : World) : Failure → World → Prop where
  | config {failure : ConfigFailure}
    (refused : (configure World.host a.config a.overrides).run.run s =
      (.error (.config failure), s)) :
    Fails a path s (.config failure) s
  | fetch {config : Config} {failure : FetchFailure}
    (configured : (configure World.host a.config a.overrides).run.run s = (.ok config, s))
    (unread : (openExport World.host path).run.run s = (.error failure, s)) (shown : List String) :
    Fails a path s (.fetch failure) (s.showing shown)
  | write {config : Config} {e : Export} {models : Models} {before after : List RenderedUnit}
    {unit : RenderedUnit} {failure : WriteFailure} {t : World}
    (configured : (configure World.host a.config a.overrides).run.run s = (.ok config, s))
    (read : (openExport World.host path).run.run s = (.ok e, s))
    (generated : e.models config = .ok models) (split : models.units = before ++ unit :: after)
    (stops : (writer config a.dryRun).StopsAt before unit s failure t) (shown : List String) :
    Fails a path s (.write failure) (t.showing shown)

theorem generate_run (offline : a.fromFile = some path) (send : Client.Transport (StateM World))
    {config : Config} {models : Models}
    (configured : (configure World.host a.config a.overrides).run.run s = (.ok config, s))
    (read : opened path (s.files.read path) = .ok e) (generated : e.models config = .ok models) :
    ∃ shown, (generate World.host send a).run.run s =
      (((writer config a.dryRun).session models.units s).1.map fun _ => (),
        ((writer config a.dryRun).session models.units s).2.showing shown) := by
  obtain ⟨first, sourced⟩ := openSource_ok offline read send config
  obtain ⟨own, second, generated', collected⟩ := collect_run config e (s.showing first)
  obtain rfl := Except.ok.inj (generated'.symm.trans generated)
  obtain ⟨third, warned⟩ := reportWarnings_run own ((s.showing first).showing second)
  obtain ⟨last, wrote⟩ := writeUnits_run (writer config a.dryRun) own.units (s.showing third)
  rw [generate, run_bind_ok configured, run_bind_ok sourced, run_bind_ok collected,
    run_bind_ok warned]
  rw [session_blind] at wrote
  rcases session : (writer config a.dryRun).session own.units s with ⟨failure | results, later⟩
  all_goals rw [session] at wrote
  · exact ⟨last, run_bind_error wrote⟩
  · by_cases dry : a.dryRun = true
    · exact ⟨last, (run_bind_ok wrote).trans (by simp only [dry]; rfl)⟩
    · exact ⟨_, (run_bind_ok wrote).trans (by simp only [dry]; rfl)⟩

theorem generate_fails (offline : a.fromFile = some path) (send : Client.Transport (StateM World))
    (alone : ∀ path, s.answer path = .ok false) {failure : Failure}
    (failed : (generate World.host send a).run.run s = (.error failure, t)) :
    Fails a path s failure t := by
  obtain ⟨configured, reads⟩ :=
    configure_reads a.config a.overrides (consulted s.files a.config)
  have configures := reads s rfl
  have opens := openExport_run path s
  cases configured with
  | error refusal =>
    have ended : (generate World.host send a).run.run s = (.error (.config refusal), s) :=
      run_bind_error configures
    obtain ⟨rfl, rfl⟩ := Prod.mk.inj (failed.symm.trans ended) |>.imp_left Except.error.inj
    exact .config configures
  | ok config =>
    cases read : opened path (s.files.read path) with
    | error unread =>
      rw [read] at opens
      obtain ⟨shown, stopped⟩ := openSource_error offline read send config
      have ended : (generate World.host send a).run.run s =
          (.error (.fetch unread), s.showing shown) := by
        rw [generate, run_bind_ok configures]
        exact run_bind_error stopped
      obtain ⟨rfl, rfl⟩ := Prod.mk.inj (failed.symm.trans ended) |>.imp_left Except.error.inj
      exact .fetch configures opens shown
    | ok e =>
      rw [read] at opens
      obtain ⟨models, _, generated, _⟩ := collect_run config e s
      obtain ⟨shown, ended⟩ := generate_run offline send configures read generated
      rcases session : (writer config a.dryRun).session models.units s with ⟨own | results, later⟩
      all_goals
        rw [session] at ended
        obtain ⟨result, rfl⟩ := Prod.mk.inj (failed.symm.trans ended)
      case ok => cases result
      case error =>
        obtain rfl := Except.error.inj result
        obtain ⟨before, unit, after, own, split, rfl, stops⟩ := session_stopsAt alone session
        exact .write configures opens generated split stops shown

-- What is left of a run that has failed.
structure Abandoned (a : GenerateArguments) (path : String)
    (send : Client.Transport (StateM World)) (s : World) (failure : Failure) (t : World) :
    Prop where
  exit : failure.exitCode = 1 ↔ (∃ own, failure = .config own) ∨ ∃ own, failure = .fetch own
  untouched : (∀ own, failure ≠ .write own) → t.files = s.files
  refused : (∃ own, failure = .config own) ↔
    (configure World.host a.config a.overrides).run.run s = (.error failure, s)
  -- The same is said of every world with this configuration, whatever the export holds there.
  unread : ∀ own, failure = .config own → t = s ∧
    ∀ other : World, consulted other.files a.config = consulted s.files a.config →
      (generate World.host send a).run.run other = (.error failure, other)
  written : ∀ own, failure = .write own → failure.exitCode = 2 ∧
    ∃ config e models before unit after,
      (configure World.host a.config a.overrides).run.run s = (.ok config, s) ∧
      (openExport World.host path).run.run s = (.ok e, s) ∧ e.models config = .ok models ∧
      models.units = before ++ unit :: after ∧
      (writer config a.dryRun).StopsAt before unit s own t

theorem Fails.abandoned (send : Client.Transport (StateM World)) {failure : Failure}
    (fails : Fails a path s failure t) : Abandoned a path send s failure t := by
  cases fails with
  | @config own refused =>
    refine ⟨?_, fun _ => rfl, ?_, ?_, nofun⟩
    · simp [Failure.exitCode]
    · exact ⟨fun _ => refused, fun _ => ⟨own, rfl⟩⟩
    · rintro _ -
      refine ⟨rfl, fun other same => ?_⟩
      obtain ⟨r, reads⟩ := configure_reads a.config a.overrides (consulted s.files a.config)
      have here := (Prod.mk.inj ((reads s rfl).symm.trans refused)).1
      have there := reads other same
      rw [here] at there
      exact run_bind_error there
  | fetch configured unread shown =>
    refine ⟨by simp [Failure.exitCode], fun _ => rfl, ⟨nofun, fun refused => ?_⟩, nofun, nofun⟩
    cases configured.symm.trans refused
  | @write config e models before after unit own _ configured read generated split stops shown =>
    refine ⟨by simp [Failure.exitCode], fun other => absurd rfl (other _),
      ⟨nofun, fun refused => ?_⟩, nofun, ?_⟩
    · cases configured.symm.trans refused
    · rintro _ ⟨⟩
      exact ⟨rfl, config, e, models, before, unit, after, configured, read, generated, split,
        stops.failure, stops.written⟩

theorem program_failed {environment : Environment} {arguments : List String}
    (parsed : parse environment arguments = .ok (.generate a)) (offline : a.fromFile = some path)
    (send : Client.Transport (StateM World)) (alone : ∀ path, s.answer path = .ok false)
    {failure : Failure} (failed : (generate World.host send a).run.run s = (.error failure, t)) :
    (program World.host send environment arguments).run s = (failure.exitCode,
        { t with complaints := ("Error: " ++ failure.message) :: t.complaints }) ∧
      Abandoned a path send s failure t := by
  refine ⟨?_, (generate_fails offline send alone failed).abandoned send⟩
  have ran : (command World.host send (.generate a)).run.run s = (.error failure, t) := failed
  rw [program, parsed]
  dsimp only
  rw [StateT.run_bind, ran]
  rfl

def obstructed : GenerateArguments where
  path := some "out"
  force := true
  fromFile := some "models.json"

-- The export of nothing, and a directory in the way of the fourth of the units that come of it.
def exported : World where
  files := ((((FileTree.put {} ["models.json"] (.file "{}".toUTF8)).put ["out"] .directory).put
    ["out", "Models"] .directory).put ["out", "Models", "DisplayNameAttribute.cs"] .directory)

theorem obstructed_parsed : parse {} ["generate", "--from-file", "models.json", "--path", "out",
    "--force"] = .ok (.generate obstructed) := by
  cbv

theorem obstructed_configured :
    (configure World.host obstructed.config obstructed.overrides).run.run exported =
      (.ok (({} : Config).override obstructed.overrides), exported) := by
  have missing : exported.files.contains Config.standardPath = false := by
    rw [FileTree.contains, FileTree.find?, FileTree.locate_eq (by decide)]
    cbv
  have loaded : (loadConfig World.host obstructed.config).run.run exported =
      (.ok {}, exported) := by
    have consults := run_lift (contains_run Config.standardPath exported)
    rw [obstructed, loadConfig, run_bind_ok consults, missing]
    rfl
  have valid : (({} : Config).override obstructed.overrides).validate = .ok () :=
    Config.default_validate
  rw [configure, run_bind_ok loaded]
  simp only [valid]
  rfl

theorem exported_read : opened "models.json" (exported.files.read "models.json") = .ok {} := by
  have leads : exported.files.locate "models.json" = some ["models.json"] := by
    rw [FileTree.locate_eq (by decide)]
    cbv
  have content : exported.files.read "models.json" = .ok "{}".toUTF8 := by
    rw [FileTree.read, FileTree.find?, leads]
    rfl
  rw [content]
  cbv

theorem obstructed_units : ((({} : Export).models
      (({} : Config).override obstructed.overrides)).toOption.map fun models =>
        models.units.map (·.path)) =
    some ((Models.magazineFiles.take 5).map ("Models/" ++ ·)) := by
  decide +kernel

theorem obstructed_session {units : List RenderedUnit}
    (paths : units.map (·.path) = (Models.magazineFiles.take 5).map ("Models/" ++ ·)) :
    ∃ t, Models.pressing.session units exported = (.error (.write
      (.writeFile "out/Models/DisplayNameAttribute.cs" FileTree.isADirectory)), t) ∧
      ∀ name ∈ Models.magazineFiles.take 3, t.files.contains ("out/Models/" ++ name) = true := by
  have front : (units.take 3).map (·.path) =
      (Models.magazineFiles.take 3).map ("Models/" ++ ·) := by
    rw [List.map_take, paths]
    rfl
  have back : (units.drop 3).map (·.path) =
      ["Models/DisplayNameAttribute.cs", "Models/IEmbeddedObjectConverter.cs"] := by
    rw [List.map_drop, paths]
    rfl
  have free : ∀ name ∈ Models.magazineFiles.take 3,
      exported.files.node? ["out", "Models", name] ≠ some .directory := by
    decide +kernel
  have ready := Models.pressing_units rfl rfl rfl (fun _ => List.mem_of_mem_take) free front
  obtain ⟨files, written⟩ := session_ready rfl rfl rfl ready
  have course := session_course Models.pressing (units.take 3) exported
  rw [written] at course
  obtain ⟨unit, rest, split, path, _⟩ := List.map_eq_cons_iff.mp back
  have among : "DisplayNameAttribute.cs" ∈ Models.magazineFiles := by decide
  have admits : files.admitsFiles (Models.pressing.directory (Models.pressing.target unit)) =
      true := by
    rw [Models.pressing_directory among path]
    exact course.growth.admitsFiles (Models.pressing_admits rfl rfl rfl)
  have blocked : files.find? (Models.pressing.target unit) = some .directory := by
    refine course.growth.find?_directory ?_
    rw [FileTree.find?, Models.pressing_leads among path rfl rfl rfl]
    rfl
  have stops := outcome_blocked (s := changing exported files) rfl rfl rfl admits blocked
  have whole : Models.pressing.session (units.take 3 ++ units.drop 3) exported = _ :=
    session_append written
  rw [List.take_append_drop, split, session_cons_error stops,
    Models.pressing_target among path] at whole
  refine ⟨_, whole, fun name member => ?_⟩
  have listed : "Models/" ++ name ∈ (units.take 3).map (·.path) :=
    front ▸ List.mem_map_of_mem member
  obtain ⟨first, early, path⟩ := List.mem_map.mp listed
  have there := course.contains rfl rfl first early
  rwa [Models.pressing_target (List.mem_of_mem_take member) path] at there

def disconnected : Client.Transport (StateM World) :=
  fun request => return .error (.http request.url "no connection")

theorem obstructed_failed : ∃ t,
    parse {} ["generate", "--from-file", "models.json", "--path", "out", "--force"] =
      .ok (.generate obstructed) ∧
    obstructed.fromFile = some "models.json" ∧ (∀ path, exported.answer path = .ok false) ∧
    (generate World.host disconnected obstructed).run.run exported = (.error (.write
      (.writeFile "out/Models/DisplayNameAttribute.cs" FileTree.isADirectory)), t) ∧
    ((program World.host disconnected {} ["generate", "--from-file", "models.json", "--path", "out",
        "--force"]).run exported).1 = 2 ∧
    Abandoned obstructed "models.json" disconnected exported (.write
      (.writeFile "out/Models/DisplayNameAttribute.cs" FileTree.isADirectory)) t ∧
    ∀ name ∈ ["ContentstackLink.cs", "ContentstackHelper.cs", "ContentstackStringExtension.cs"],
      t.files.contains ("out/Models/" ++ name) = true := by
  obtain ⟨models, _, generated, _⟩ :=
    collect_run (({} : Config).override obstructed.overrides) {} exported
  have paths := obstructed_units
  rw [generated] at paths
  obtain ⟨t, session, written⟩ := obstructed_session (Option.some.inj paths)
  obtain ⟨shown, failed⟩ :=
    generate_run rfl disconnected obstructed_configured exported_read generated
  have writes : writer (({} : Config).override obstructed.overrides) obstructed.dryRun =
      Models.pressing := rfl
  rw [writes, session] at failed
  obtain ⟨ended, abandoned⟩ :=
    program_failed obstructed_parsed rfl disconnected (fun _ => rfl) failed
  exact ⟨_, obstructed_parsed, rfl, fun _ => rfl, failed, congrArg Prod.fst ended, abandoned,
    written⟩

end Run

end ContentModels
