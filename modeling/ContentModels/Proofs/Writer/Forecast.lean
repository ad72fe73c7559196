import ContentModels.Proofs.Emission.Validity
import ContentModels.Proofs.Source
import ContentModels.Proofs.Writer.Consent

set_option autoImplicit false

namespace ContentModels

theorem Path.join_injective (path : String) {segment other : String}
    (relative : isAbsolute segment = false) (otherRelative : isAbsolute other = false)
    (same : join path segment = join path other) : segment = other := by
  simp only [join, relative, otherRelative, Bool.false_eq_true, if_false] at same
  split at same
  all_goals exact String.append_right_inj _ |>.mp same

namespace FileTree

def Passes (t : FileTree) (path : String) (location : Location) : Prop :=
  ∃ front, front <+: Path.segments path ∧ front.foldlM t.step (t.start path) = some location

variable {t later : FileTree} {location : Location}

theorem Growth.passes {touched : Location → Prop} (growth : t.Growth touched later) {path : String}
    (passes : t.Passes path location) : later.Passes path location := by
  obtain ⟨front, before, leads⟩ := passes
  refine ⟨front, before, ?_⟩
  rw [growth.start]
  exact growth.foldlM_step leads

theorem makeFrom_made {segments : List String} {start : Location}
    (changed : (t.makeFrom start segments).1.node? location ≠ t.node? location) :
    t.node? location = none ∧ (t.makeFrom start segments).1.node? location = some .directory ∧
      ∃ front, front <+: segments ∧
        front.foldlM (t.makeFrom start segments).1.step start = some location := by
  induction segments generalizing t start with
  | nil => exact absurd rfl changed
  | cons first rest ih =>
    cases stepped : t.step start first with
    | none => simp [makeFrom, stepped] at changed
    | some next =>
      -- what is made further on is reached through the first segment
      have through {made : FileTree} (grown : t.Growth (fun _ => False) made)
          (beyond : ∃ front, front <+: rest ∧ front.foldlM made.step next = some location) :
          ∃ front, front <+: first :: rest ∧ front.foldlM made.step start = some location := by
        obtain ⟨front, ahead, leads⟩ := beyond
        refine ⟨first :: front, List.cons_prefix_cons.mpr ⟨rfl, ahead⟩, ?_⟩
        exact Option.bind_eq_some_iff.mpr ⟨next, grown.step stepped, leads⟩
      have growth : t.Growth (fun _ => False) (t.makeFrom start (first :: rest)).1 :=
        makeFrom_growth t _ start (first :: rest)
      cases node : t.node? next with
      | some there =>
        cases there with
        | file => simp [makeFrom, stepped, node] at changed
        | directory =>
          have same : t.makeFrom start (first :: rest) = t.makeFrom next rest := by
            simp [makeFrom, stepped, node]
          rw [same] at changed growth ⊢
          obtain ⟨free, made, beyond⟩ := ih changed
          exact ⟨free, made, through growth beyond⟩
      | none =>
        have same : t.makeFrom start (first :: rest) =
            (t.put next .directory).makeFrom next rest := by
          simp [makeFrom, stepped, node]
        have below : next ≠ [] := ne_nil_of_node? (t := t) (by simp [node])
        rw [same] at changed growth ⊢
        by_cases here : location = next
        case pos =>
          subst here
          have made := (makeFrom_growth (t.put location .directory) (fun _ => False) location
            rest).directories location (by rw [node?_put below, if_pos rfl])
          exact ⟨node, made, through growth ⟨[], List.nil_prefix, rfl⟩⟩
        case neg =>
          have kept : (t.put next .directory).node? location = t.node? location := by
            rw [node?_put below, if_neg here]
          rw [← kept] at changed ⊢
          obtain ⟨free, made, beyond⟩ := ih changed
          exact ⟨free, made, through growth beyond⟩

-- Whether a tree has nothing new but directories that a path leads through or to.
def Widens (t : FileTree) (path : String) (later : FileTree) : Prop :=
  ∀ location, later.node? location = t.node? location ∨
    t.node? location = none ∧ later.node? location = some .directory ∧ later.Passes path location

theorem Widens.files {path : String} (widens : t.Widens path later)
    (location : Location) (content : ByteArray) :
    t.node? location = some (.file content) ↔ later.node? location = some (.file content) := by
  rcases widens location with same | ⟨missing, directory, _⟩
  · rw [same]
  · simp [missing, directory]

theorem MakesPart.widens {path : String} (part : t.MakesPart path later) :
    t.Widens path later := by
  obtain ⟨segments, within, rfl⟩ := part
  intro location
  refine or_iff_not_imp_left.mpr fun changed => ?_
  obtain ⟨free, made, front, before, leads⟩ := makeFrom_made changed
  refine ⟨free, made, front, before.trans within, ?_⟩
  rw [(makeFrom_growth t (fun _ => False) _ _).start]
  exact leads

end FileTree

namespace Writer

variable {w : Writer} {unit : RenderedUnit} {units : List RenderedUnit} {s later : World}

structure Realizes (w : Writer) (units : List RenderedUnit) (t later : FileTree) : Prop where
  current : later.current = t.current
  written : ∀ unit ∈ units, later.find? (w.target unit) = some (.file unit.content.toUTF8)
  otherwise : ∀ location, (∀ unit ∈ units, later.locate (w.target unit) ≠ some location) →
    later.node? location = t.node? location ∨
      t.node? location = none ∧ later.node? location = some .directory ∧
        ∃ unit ∈ units, later.Passes (w.directory (w.target unit)) location

theorem Ensured.widens {d : Disk} {path : String} {t made : FileTree}
    (ensured : Ensured d t path made) : t.Widens path made := by
  obtain ⟨_, rfl⟩ | ⟨_, makes⟩ := ensured
  · exact fun _ => .inl rfl
  · exact (Disk.makesPart makes).widens

theorem Step.realizes {r : WriteResult} (step : w.Step unit s (.ok r) later)
    (real : w.isDryRun = false) (forced : w.force = true) :
    r = .written (w.target unit) unit.content.utf8ByteSize ∧
      later = changing s later.files ∧ w.Realizes [unit] s.files later.files := by
  cases step with
  | dryRun dry => simp [dry] at real
  | skipped _ careful => simp [forced] at careful
  | @written t made files _ clear ensured done =>
    obtain rfl : t = s := by
      cases clear with
      | free => rfl
      | agreed _ careful => simp [forced] at careful
    have written := Disk.replace_ok done
    obtain ⟨growth, found⟩ := FileTree.write_ok written
    obtain ⟨target, leads, free, rfl⟩ := FileTree.write_eq_ok.mp written
    refine ⟨rfl, rfl, ?_, fun other member => ?_, fun location apart => ?_⟩
    · have kept : t.files.Growth (fun _ => False) made := ensured.growth
      exact growth.current.trans kept.current
    · rwa [List.mem_singleton.mp member]
    · have other : location ≠ target := by
        rintro rfl
        exact apart unit (List.mem_singleton_self unit) (growth.locate leads)
      have kept : (made.put target (.file unit.content.toUTF8)).node? location =
          made.node? location := by
        rw [FileTree.node?_put (FileTree.ne_nil_of_node? free), if_neg other]
      rw [changing, kept]
      rcases ensured.widens location with same | ⟨missing, directory, passes⟩
      · exact .inl same
      · exact .inr
          ⟨missing, directory, unit, List.mem_singleton_self unit, growth.passes passes⟩

theorem Realizes.cons {rest : List RenderedUnit} {t middle last : FileTree}
    (first : w.Realizes [unit] t middle) (further : w.Realizes rest middle last)
    (growth : middle.Growth (w.Touches rest last) last)
    (apart : ∀ location, last.locate (w.target unit) = some location →
      ¬ w.Touches rest last location) : w.Realizes (unit :: rest) t last where
  current := further.current.trans first.current
  written := by
    intro other member
    rcases List.mem_cons.mp member with rfl | member
    · have found := first.written other (List.mem_singleton_self other)
      obtain ⟨location, leads, file⟩ := Option.bind_eq_some_iff.mp found
      have still := growth.locate leads
      rw [FileTree.find?, still, Option.bind_some]
      exact (growth.frame location (apart location still) _).mp file
    · exact further.written other member
  otherwise := by
    intro location clear
    have before : ∀ other ∈ [unit], middle.locate (w.target other) ≠ some location := by
      intro other member leads
      obtain rfl := List.mem_singleton.mp member
      exact clear other List.mem_cons_self (growth.locate leads)
    have after := further.otherwise location fun other member =>
      clear other (List.mem_cons_of_mem unit member)
    rcases first.otherwise location before with same | ⟨missing, directory, other, member, passes⟩
    · rw [← same]
      rcases after with kept | ⟨missing, directory, other, member, passes⟩
      · exact .inl kept
      · exact .inr ⟨missing, directory, other, List.mem_cons_of_mem unit member, passes⟩
    · obtain rfl := List.mem_singleton.mp member
      exact .inr ⟨missing, growth.directories location directory, other, List.mem_cons_self,
        growth.passes passes⟩

theorem session_dry (dry : w.isDryRun = true) (units : List RenderedUnit) (s : World) :
    w.session units s =
      (.ok (units.map fun unit => .dryRun (w.target unit) unit.content), s) := by
  induction units with
  | nil => rfl
  | cons unit rest ih =>
    have first : w.outcome unit s = (.ok (.dryRun (w.target unit) unit.content), s) := by
      rw [outcome, write_eq, if_pos dry]
      rfl
    rw [session_cons_ok first, ih]
    rfl

theorem target_injective {other : RenderedUnit} (plain : Plain unit) (otherPlain : Plain other)
    (same : w.target unit = w.target other) : unit.path = other.path := by
  obtain ⟨names, some, down, path⟩ := plain
  obtain ⟨otherNames, otherSome, otherDown, otherPath⟩ := otherPlain
  apply Path.join_injective w.root _ _ same
  · rw [path, down.isAbsolute_eq_false some]
  · rw [otherPath, otherDown.isAbsolute_eq_false otherSome]

theorem Course.realizes {result : Except Failure (List WriteResult)}
    (course : w.Course units s result later) (real : w.isDryRun = false) (forced : w.force = true)
    (plain : ∀ unit ∈ units, Plain unit) (distinct : (units.map (·.path)).Nodup)
    {results : List WriteResult} (done : result = .ok results) :
    results = units.map (fun unit => .written (w.target unit) unit.content.utf8ByteSize) ∧
      later = changing s later.files ∧ w.Realizes units s.files later.files := by
  induction course generalizing results with
  | done s =>
    cases done
    exact ⟨rfl, rfl, rfl, nofun, fun _ _ => .inl rfl⟩
  | stopped => cases done
  | @further unit s t later r rest result step course ih =>
    obtain _ | others := result
    case error => cases done
    case ok =>
      obtain ⟨first, untouched⟩ := List.nodup_cons.mp distinct
      obtain ⟨written, here, realized⟩ := step.realizes real forced
      obtain ⟨others, there, further⟩ :=
        ih (fun other member => plain other (List.mem_cons_of_mem unit member)) untouched rfl
      cases done
      refine ⟨by rw [written, others]; rfl, ?_, realized.cons further course.growth ?_⟩
      · rw [there, here]
        rfl
      · rintro location leads ⟨other, member, same⟩
        have paths := target_injective (plain unit List.mem_cons_self)
          (plain other (List.mem_cons_of_mem unit member))
          ((plain unit List.mem_cons_self).target_unique
            (plain other (List.mem_cons_of_mem unit member)) leads same)
        exact first (List.mem_map.mpr ⟨other, member, paths.symm⟩)

structure Forecasts (w : Writer) (units : List RenderedUnit) (s : World) : Prop where
  shown : { w with isDryRun := true }.session units s =
    (.ok (units.map fun unit => .dryRun (w.target unit) unit.content), s)
  comes : ∀ results later,
    { w with isDryRun := false, force := true }.session units s = (.ok results, later) →
      results = units.map (fun unit => .written (w.target unit) unit.content.utf8ByteSize) ∧
      later = changing s later.files ∧ w.Realizes units s.files later.files

theorem forecasts (w : Writer) (plain : ∀ unit ∈ units, Plain unit)
    (distinct : (units.map (·.path)).Nodup) (s : World) : w.Forecasts units s where
  shown := session_dry rfl units s
  comes results later done := by
    have course := session_course { w with isDryRun := false, force := true } units s
    rw [done] at course
    obtain ⟨written, here, realized⟩ := course.realizes rfl rfl plain distinct rfl
    exact ⟨written, here, realized.current, realized.written, realized.otherwise⟩

end Writer

namespace Emission

theorem rendered_plain {c : Context} {u : GeneratedUnit} (proper : Proper c u) (nullable : Bool) :
    Writer.Plain ((Renderer.csharp nullable).render u) :=
  ⟨_, by simp, proper.descending, proper.relativePath_eq⟩

end Emission

namespace Models

theorem ofRegistry_eq (config : Config) (stack : Stack) (registry : Registry) :
    ∃ models, ofRegistry config stack registry = .ok models ∧ ∃ output,
      Emission.generate registry
          (config.emissionOptions (config.features.references.policy stack.schemaVersion)) =
        .ok output ∧
      models.units = (Renderer.csharp config.features.nullable).renderAll output.units := by
  have generated := Emission.generate_eq registry
    (config.emissionOptions (config.features.references.policy stack.schemaVersion))
  rw [ofRegistry, generated]
  exact ⟨_, rfl, _, rfl, rfl⟩

theorem ofRegistry_units {config : Config} (accepted : config.validate = .ok ()) {stack : Stack}
    {registry : Registry} {models : Models}
    (generated : ofRegistry config stack registry = .ok models) :
    (∀ unit ∈ models.units, Writer.Plain unit) ∧ (models.units.map (·.path)).Nodup := by
  obtain ⟨_, same, output, emitted, units⟩ := ofRegistry_eq config stack registry
  cases generated.symm.trans same
  have valid := Config.emissionOptions_valid accepted
    (config.features.references.policy stack.schemaVersion)
  cases (Emission.generate_eq registry _).symm.trans emitted
  rw [units, Renderer.renderAll]
  constructor
  · intro unit member
    obtain ⟨u, inside, rfl⟩ := List.mem_map.mp member
    exact Emission.rendered_plain (Emission.finished_proper valid inside) _
  · rw [List.map_map]
    exact (Emission.writtenOnce (Emission.finished_consistent _).distinct
      fun u inside => Emission.finished_proper valid inside).paths "cs"

variable {σ : Type}

theorem fetching_run {α : Type} (act : ExceptT FetchFailure (StateM σ) α) (s : σ) :
    (fetching act).run.run s = ((act.run.run s).1.mapError .fetch, (act.run.run s).2) := by
  change (Except.mapError Failure.fetch <$> act.run).run s = _
  rw [StateT.run_map]
  rfl

theorem fetching_yields {α : Type} {act : ExceptT FetchFailure (StateM σ) α} {s t : σ} {a : α}
    (yields : Yields act s a t) : (fetching act).run.run s = (.ok a, t) := by
  rw [fetching_run, yields]
  rfl

theorem ofSource_run (config : Config) {source : FallibleSource (StateM σ)} {s middle t : σ}
    {stack : Stack} {registry : Registry} (described : Yields source.stack s stack middle)
    (loaded : Yields source.loadRegistry middle registry t) :
    (ofSource config source).run.run s = (ofRegistry config stack registry, t) := by
  rw [ofSource, ExceptT.run_bind, StateT.run_bind, fetching_yields described]
  change (fetching source.loadRegistry >>= fun registry =>
    ExceptT.mk (pure (ofRegistry config stack registry))).run.run middle = _
  rw [ExceptT.run_bind, StateT.run_bind, fetching_yields loaded]
  rfl

theorem ofSource_forecasts {config : Config} (accepted : config.validate = .ok ())
    {source : FallibleSource (StateM σ)} {s middle t : σ} {stack : Stack} {registry : Registry}
    (described : Yields source.stack s stack middle)
    (loaded : Yields source.loadRegistry middle registry t) :
    ∃ models, (ofSource config source).run.run s = (.ok models, t) ∧
      ∀ (w : Writer) (world : World), w.Forecasts models.units world := by
  obtain ⟨models, generated, _⟩ := ofRegistry_eq config stack registry
  obtain ⟨plain, distinct⟩ := ofRegistry_units accepted generated
  exact ⟨models, by rw [ofSource_run config described loaded, generated],
    fun w world => w.forecasts plain distinct world⟩

def magazineSource : FallibleSource (StateM Nat) := Source.magazineExport.source

def magazineLoaded : Registry :=
  (Collection.contentTypes.marked Source.magazineExport.contentTypes ++
    Collection.globalFields.marked Source.magazineExport.globalFields).foldl
      (fun r d => (r.register d).2) .empty

def magazineFiles : List String :=
  ["ContentstackLink.cs", "ContentstackHelper.cs", "ContentstackStringExtension.cs",
    "DisplayNameAttribute.cs", "IEmbeddedObjectConverter.cs", "Issue.cs", "Article.cs", "Byline.cs"]

def pressing : Writer where
  root := "out"
  force := true

section Pressing

variable {name : String} (among : name ∈ magazineFiles) {unit : RenderedUnit}
  (path : unit.path = "Models/" ++ name)

section Paths

include among path

theorem pressing_target : pressing.target unit = "out/Models/" ++ name := by
  have joins : ∀ name ∈ magazineFiles,
      Path.join "out" ("Models/" ++ name) = "out/Models/" ++ name := by
    decide +kernel
  rw [Writer.target, path]
  exact joins name among

theorem pressing_directory : pressing.directory (pressing.target unit) = "out/Models" := by
  have above : ∀ name ∈ magazineFiles,
      Path.parent? ("out/Models/" ++ name) = some "out/Models" := by
    simp only [Path.parent?, Path.segments_eq]
    decide +kernel
  rw [pressing_target among path, Writer.directory, above name among]
  rfl

end Paths

variable {t : FileTree} (top : t.current = []) (out : t.node? ["out"] = some .directory)
  (models : t.node? ["out", "Models"] = some .directory)

include top out models

theorem pressing_admits : t.admitsFiles "out/Models" = true := by
  have valid : FileTree.isPath "/out/Models/.tmpAAAAAA" = true :=
    FileTree.isPath_iff.mpr (by decide)
  have temporary : t.temporaryPath "out/Models" = "/out/Models/.tmpAAAAAA" := by
    rw [FileTree.temporaryPath, top]
    decide +kernel
  have cut : ("out/Models".toList.splitOn '/').map String.ofList = ["out", "Models"] := by
    decide +kernel
  have leads : t.locate "out/Models" = some ["out", "Models"] := by
    have first : t.step [] "out" = some ["out"] := FileTree.step_of_name rfl (by decide)
    have second : t.step ["out"] "Models" = some ["out", "Models"] :=
      FileTree.step_of_name out (by decide)
    rw [FileTree.locate_eq (by decide), cut, FileTree.start, top, ite_self]
    simp [first, second]
  rw [FileTree.admitsFiles, temporary, valid, FileTree.find?, leads, Option.bind_some, models]
  rfl

include among path

theorem pressing_leads : t.locate (pressing.target unit) = some ["out", "Models", name] := by
  have valid : ∀ name ∈ magazineFiles, "out/Models/" ++ name ≠ "" ∧
      '\x00' ∉ ("out/Models/" ++ name).toList ∧
      ("out/Models/" ++ name).utf8ByteSize ≤ FileTree.longestPath := by
    decide +kernel
  have cut : ∀ name ∈ magazineFiles,
      (("out/Models/" ++ name).toList.splitOn '/').map String.ofList = ["out", "Models", name] := by
    decide +kernel
  have named : ∀ name ∈ magazineFiles, name ≠ "" ∧ name ≠ "." ∧ name ≠ ".." ∧
      name.utf8ByteSize ≤ FileTree.longestName := by
    decide +kernel
  have first : t.step [] "out" = some ["out"] := FileTree.step_of_name rfl (by decide)
  have second : t.step ["out"] "Models" = some ["out", "Models"] :=
    FileTree.step_of_name out (by decide)
  have third : t.step ["out", "Models"] name = some ["out", "Models", name] :=
    FileTree.step_of_name models (named name among)
  rw [pressing_target among path, FileTree.locate_eq (valid name among), cut name among,
    FileTree.start, top, ite_self]
  simp [first, second, third]

theorem pressing_ready (free : t.node? ["out", "Models", name] ≠ some .directory) :
    pressing.Ready t unit := by
  refine ⟨?_, _, pressing_leads among path top out models, free⟩
  rw [pressing_directory among path]
  exact pressing_admits top out models

omit among path

theorem pressing_units {names : List String} (known : ∀ name ∈ names, name ∈ magazineFiles)
    (free : ∀ name ∈ names, t.node? ["out", "Models", name] ≠ some .directory)
    {units : List RenderedUnit} (paths : units.map (·.path) = names.map ("Models/" ++ ·)) :
    ∀ unit ∈ units, pressing.Ready t unit := by
  intro unit member
  have listed := List.mem_map_of_mem (f := (·.path)) member
  rw [paths] at listed
  obtain ⟨name, among, path⟩ := List.mem_map.mp listed
  exact pressing_ready (known name among) path.symm top out models (free name among)

end Pressing

-- A place with an earlier version of one of the files.
def press : World where
  files := (((FileTree.put {} ["out"] .directory).put ["out", "Models"] .directory).put
    ["out", "Models", "Issue.cs"] (.file "old".toUTF8))

theorem magazineLoaded_files :
    (ofRegistry {} {} magazineLoaded).toOption.map (fun models => models.units.map (·.path)) =
      some (magazineFiles.map ("Models/" ++ ·)) := by
  decide +kernel

theorem magazineSource_forecasts : Config.validate {} = .ok () ∧ ∃ later,
    Yields magazineSource.stack 0 {} 0 ∧
    Yields magazineSource.loadRegistry 0 magazineLoaded later ∧
    magazineLoaded.all.map (·.title) = ["Issue", "Article", "Byline"] ∧
    ∃ models, (ofSource {} magazineSource).run.run 0 = (.ok models, later) ∧
      pressing.Forecasts models.units press ∧
      ∃ results done, pressing.session models.units press = (.ok results, done) ∧
        results.map (·.path) = magazineFiles.map ("out/Models/" ++ ·) ∧
        pressing.Realizes models.units press.files done.files := by
  have described : Yields magazineSource.stack 0 {} 0 := rfl
  obtain ⟨later, loaded⟩ : ∃ later, Yields magazineSource.loadRegistry 0 magazineLoaded later :=
    Source.loadRegistry_yields Source.magazineExport_bounded 0
  obtain ⟨models, generated, forecasts⟩ :=
    ofSource_forecasts Config.default_validate described loaded
  have paths : models.units.map (·.path) = magazineFiles.map ("Models/" ++ ·) := by
    have shown := magazineLoaded_files
    rw [(Prod.mk.inj ((ofSource_run {} described loaded).symm.trans generated)).1] at shown
    exact Option.some.inj shown
  have free : ∀ name ∈ magazineFiles,
      press.files.node? ["out", "Models", name] ≠ some .directory := by
    decide +kernel
  have ready := pressing_units rfl rfl rfl (fun _ => id) free paths
  obtain ⟨files, session⟩ := Writer.session_ready rfl rfl rfl ready
  obtain ⟨_, _, realized⟩ := (forecasts pressing press).comes _ _ session
  refine ⟨Config.default_validate, later, described, loaded, by decide +kernel, models,
    generated, forecasts pressing press, _, _, session, ?_, realized⟩
  calc (models.units.map fun unit => WriteResult.written _ _).map (·.path)
      = (models.units.map (·.path)).map (Path.join "out") := by
        rw [List.map_map, List.map_map]
        rfl
    _ = (magazineFiles.map ("Models/" ++ ·)).map (Path.join "out") := by rw [paths]
    _ = magazineFiles.map ("out/Models/" ++ ·) := by decide +kernel

end Models

end ContentModels
